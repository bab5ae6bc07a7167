import Weft.Bytes.Cursor
import Weft.Describe.Injection
import Weft.Describe.Injector
import Weft.Script.Build
import Weft.Script.Call
import Weft.Script.Config
import Weft.Script.Numbering
import Weft.Script.Weave
import Weft.Proofs.Bytes.Reading
import Weft.Proofs.Call.Protocol
import Weft.Proofs.Call.Recovery
import Weft.Proofs.Call.Refinement
import Weft.Proofs.Call.Registration
import Weft.Proofs.ClassFile.Attributes
import Weft.Proofs.ClassFile.Histories
import Weft.Proofs.ClassFile.Images
import Weft.Proofs.ClassFile.WellFormed
import Weft.Proofs.Code.Building
import Weft.Proofs.Code.Decoding
import Weft.Proofs.Code.Grafting
import Weft.Proofs.Code.Labelling
import Weft.Proofs.Code.Reread
import Weft.Proofs.Code.Rooms
import Weft.Proofs.Code.Rounds
import Weft.Proofs.Code.RoundTrip
import Weft.Proofs.Code.Splicing
import Weft.Proofs.Injector.Definition
import Weft.Proofs.Injector.Recognition
import Weft.Proofs.Injector.Verification
import Weft.Proofs.Machine.Basic
import Weft.Proofs.Machine.Bodies
import Weft.Proofs.Site.Index
import Weft.Proofs.Visitor.Composition
import Weft.Proofs.Visitor.Order
import Weft.Proofs.Visitor.Staging
import Weft.Proofs.Weave.Additions
import Weft.Proofs.Weave.Callbacks
import Weft.Proofs.Weave.Conservation
import Weft.Proofs.Weave.Delegation
import Weft.Proofs.Weave.FirstValues
import Weft.Proofs.Weave.Handing
import Weft.Proofs.Weave.Holders
import Weft.Proofs.Weave.Population
import Weft.Proofs.Weave.Presentation
import Weft.Proofs.Weave.Sources
import Weft.Proofs.Weave.Verification
import Weft.Proofs.Signature.Printing
import Weft.Proofs.Weave.Methods
import Weft.Proofs.Code.Depths
import Weft.Proofs.Bytes.Consuming
import Weft.Proofs.ClassFile.Spellings
import Weft.Proofs.Answers
import Weft.Proofs.ClassFile.Renaming
import Weft.Proofs.Injector.Transparency
import Weft.Proofs.Site.Keys
import Weft.Proofs.Site.Parameters
import Weft.Proofs.Space.Acceptance
import Weft.Proofs.Space.Histories
import Weft.Proofs.Visitor.Purity
import Weft.Proofs.Weave.Nests
import Weft.Proofs.Weave.Privacy
import Weft.Proofs.Weave.Refusals
import Weft.Proofs.Weave.Slots
import Weft.Proofs.Bytes.Spelling
import Weft.Proofs.Code.Spelling
import Weft.Proofs.Code.Binding
import Weft.Proofs.Code.StackMaps
import Weft.Proofs.Code.Reencoding
import Weft.Proofs.Signature.Bounds
import Weft.Proofs.Signature.TypeNames
import Weft.Proofs.Signature.Generics
import Weft.Proofs.Weave.Bindings
import Weft.Proofs.Text.PlainForms
import Weft.Proofs.ClassFile.Interning
import Weft.Proofs.ClassFile.Nesting
import Weft.Proofs.ClassFile.Capacity
