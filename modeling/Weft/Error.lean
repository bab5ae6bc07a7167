import Weft.ClassFile.Constant
import Weft.Code.Instruction
import Weft.Injection.Kind
import Weft.Signature.JType
import Weft.Space.Handle
import Weft.Text.Hex

/-!
# Errors

Everything that can go wrong, by cause. A cause carries what it concerns; its wording is in one
`message` function per family. `Error.toMalformed` folds the errors that a broken image can raise
into one family, as readers of whole images report them.
-/

namespace Weft

open Weft.Text

/-- What is beyond the limits of the format or of the weaver. -/
inductive Unsupported where
  | poolSize
  | textSize
  | tableSize (entries : Nat)
  | methodParameterCount
  | annotatedParameterCount
  | attributeSize
  | codeSize
  | bodySize (bytes : Nat)
  | branchSpan (opcode : Opcode) (bytes : Int)
  | stackUnderflow (instruction : Instruction) (depth : UInt16)
  | loadVoid
  | storeVoid
  | castToPrimitive (type : JType)
  | arrayOfPrimitive (type : JType)
  | argumentCount (owner : ClassName) (name : String)
  | boxVoid
  | unboxVoid
  | parameterCount
  | switchRange
  | frameDelta (delta : Nat)
  | uninitializedOffset (offset : Nat)
  | frameLayout
  | branchLayout
  | noSuperCall (descriptor : String) (owner : ClassName)
  | other (text : String)
  deriving Inhabited

namespace Unsupported

/-- The cause in words. -/
def message : Unsupported → String
  | poolSize => "constant pool exceeds 65535 entries"
  | textSize => "UTF-8 constant longer than 65535 bytes"
  | tableSize entries => s!"table of {entries} entries"
  | methodParameterCount => "more than 255 method parameters"
  | annotatedParameterCount => "more than 255 annotated parameters"
  | attributeSize => "attribute longer than 4GiB"
  | codeSize => "code longer than 4GiB"
  | bodySize bytes => s!"method body of {bytes} bytes exceeds the 65535 byte limit"
  | branchSpan opcode bytes => s!"conditional branch '{opcode}' spans {bytes} bytes"
  | stackUnderflow instruction depth =>
    s!"operand stack underflow at '{instruction}' (depth {depth})"
  | loadVoid => "load of void"
  | storeVoid => "store of void"
  | castToPrimitive type => s!"checkcast to primitive {type}"
  | arrayOfPrimitive type => s!"anewarray of primitive {type}"
  | argumentCount owner name => s!"too many arguments for {owner}.{name}"
  | boxVoid => "boxing of void"
  | unboxVoid => "unboxing to void"
  | parameterCount => "too many parameters"
  | switchRange => "tableswitch range overflows"
  | frameDelta delta => s!"frame delta {delta}"
  | uninitializedOffset offset => s!"uninitialized offset {offset}"
  | frameLayout => "body with stack map frames does not re-encode to its original layout"
  | branchLayout => "initializer splice changed the layout of branches"
  | noSuperCall descriptor owner =>
    s!"constructor {descriptor} of {owner} has no super constructor call"
  | other text => text

end Unsupported

/-- A kind of pool entry that a reader asks for. -/
inductive PoolRole where
  | utf8 | classRef | nameAndType | memberRef | literal
  deriving DecidableEq, Inhabited

/-- The kind of entry in words. -/
def PoolRole.text : PoolRole → String
  | utf8 => "Utf8"
  | classRef => "Class"
  | nameAndType => "NameAndType"
  | memberRef => "member reference"
  | literal => "literal"

/-- What is wrong with a text, a table or an image that cannot be read. -/
inductive Malformed where
  | truncatedText (offset : Nat)
  | textLead (byte : UInt8)
  | loneSurrogate
  | emptyIdentifier (offset : Nat)
  | unexpectedCharacter (expected found : Char) (offset : Nat)
  | trailingCharacters (offset : Nat)
  | tooManyDimensions
  | voidField
  | descriptorCharacter (found : Char)
  | signatureCharacter (found : Char)
  | referenceCharacter (found : Char)
  | emptyArguments
  | emptyTypeName
  | typeName (text : String)
  | arrayOfVoid (text : String)
  | emptyPool
  | constantTag (tag : UInt8) (index : Nat)
  | wideOverrun (count : UInt16)
  | poolIndex (index : UInt16) (size : Nat)
  | poolRole (expected : PoolRole) (index : UInt16) (found : Constant)
  | notClass (index : UInt16)
  | elementTag (tag : UInt8)
  | attributeTail (name : String) (bytes : Nat)
  | codeLength (bytes : Nat)
  | emptyImage
  | magic (value : UInt32)
  | majorVersion (value : UInt16)
  | classTail (bytes : Nat)
  | opcode (byte : UInt8) (offset : Nat)
  | branchRange (offset : Nat)
  | tableRange (offset : Nat)
  | lookupSize (offset : Nat)
  | wideOpcode (byte : UInt8) (offset : Nat)
  | branchTarget (offset target : Nat)
  | exceptionRange (start stop handler : UInt16)
  | constantOperand (instruction : Instruction)
  | unplacedLabel (label : Label)
  | frameType (tag : UInt8)
  | verificationType (tag : UInt8)
  | frameTail
  | methodIndex (index : Nat)
  | noCode (method : String)
  | noInitializerCode (owner : ClassName)
  | truncatedImage
  | annotationDepth (limit : Nat)
  | unsupported (cause : Unsupported)
  | other (text : String)
  deriving Inhabited

namespace Malformed

/-- The cause in words. -/
def message : Malformed → String
  | truncatedText offset => s!"Truncated modified UTF-8 at byte {offset}"
  | textLead byte => "Invalid modified UTF-8 lead byte 0x" ++ hex byte.toNat
  | loneSurrogate => "Unpaired surrogate in constant"
  | emptyIdentifier offset => s!"Empty identifier at {offset}"
  | unexpectedCharacter expected found offset =>
    s!"Expected '{expected}' but found '{found}' at {offset}"
  | trailingCharacters offset => s!"Trailing characters in signature at {offset}"
  | tooManyDimensions => "Array dimensions exceed 255"
  | voidField => "void is not a field type"
  | descriptorCharacter found => s!"Invalid descriptor character '{found}'"
  | signatureCharacter found => s!"Invalid signature character '{found}'"
  | referenceCharacter found => s!"Invalid reference type character '{found}'"
  | emptyArguments => "Empty type argument list"
  | emptyTypeName => "Empty type name"
  | typeName text => s!"Invalid type name '{text}'"
  | arrayOfVoid text => s!"Array of void in '{text}'"
  | emptyPool => "Constant pool count is zero"
  | constantTag tag index => s!"Unknown constant pool tag {tag} at index {index}"
  | wideOverrun count => s!"Wide constant overruns the constant pool count {count}"
  | poolIndex index size => s!"Invalid constant pool index {index} (pool size {size})"
  | poolRole expected index found =>
    s!"Expected {expected.text} at {index} but found {found.text}"
  | notClass index => s!"Expected Class at {index}"
  | elementTag tag => s!"Unknown annotation element tag '{Char.ofNat tag.toNat}'"
  | attributeTail name bytes => s!"Attribute '{name}' has {bytes} trailing bytes"
  | codeLength bytes => s!"Code length {bytes} out of range"
  | emptyImage => "Empty class image"
  | magic value => "Invalid magic 0x" ++ hexPadded 8 value.toNat
  | majorVersion value => s!"Unsupported major version {value}"
  | classTail bytes => s!"{bytes} trailing bytes after class attributes"
  | opcode byte offset => s!"Unknown opcode 0x{hexPadded 2 byte.toNat} at {offset}"
  | branchRange offset => s!"Branch at {offset} leaves the method"
  | tableRange offset => s!"tableswitch at {offset} has high < low"
  | lookupSize offset => s!"lookupswitch at {offset} has negative size"
  | wideOpcode byte offset => s!"Invalid wide opcode 0x{hexPadded 2 byte.toNat} at {offset}"
  | branchTarget offset target =>
    s!"Branch at {offset} targets {target} which is not an instruction"
  | exceptionRange start stop handler =>
    s!"Exception range {start}..{stop} -> {handler} is not aligned to instructions"
  | constantOperand instruction => s!"'{instruction}' references an invalid constant"
  | unplacedLabel label => s!"Label {label} is never placed"
  | frameType tag => s!"Reserved frame type {tag}"
  | verificationType tag => s!"Unknown verification type {tag}"
  | frameTail => "Trailing bytes after stack map frames"
  | methodIndex index => s!"Method index {index} out of range"
  | noCode method => s!"{method} has no Code attribute"
  | noInitializerCode owner => s!"<clinit> of {owner} has no Code attribute"
  | truncatedImage => "truncated class image"
  | annotationDepth limit => s!"annotation nesting deeper than {limit}"
  | unsupported cause => cause.message
  | other text => text

end Malformed

/-- Why injections, plans and sites do not go together. -/
inductive Incompatible where
  | classInjection (kind : Kind) (owner : ClassName)
  | fieldInjection (kind : Kind) (site : String)
  | chainInjection (kind : Kind) (site : String)
  | voidField (name : String)
  | fieldTaken (name : String) (owner : ClassName)
  | interfaceField (owner : ClassName) (name : String)
  | constantType (value : Literal) (name : String) (type : JType)
  | specialMethod (name : String)
  | interfaceMethod (name : String) (owner : ClassName)
  | bodilessMethod (name : String)
  | methodTaken (name descriptor : String) (owner : ClassName)
  | accessorField (name : String) (owner : ClassName)
  | accessorSpecial (name : String)
  | accessorMethod (name descriptor : String) (owner : ClassName)
  | staticAccess (method member : String)
  | privateAccess (member : String) (owner : ClassName) (version required : UInt16)
  | initializerSite (site : String)
  | interfaceSite (site : String) (owner : ClassName)
  | codelessSite (site : String)
  | otherImage (planned found : ClassName)
  | wrongTarget (visitor : String) (given target : Target) (site : String)
  | unrealizable (visitor : String) (kind : Kind) (site : String)
  | other (text : String)
  deriving Inhabited

namespace Incompatible

/-- The cause in words. -/
def message : Incompatible → String
  | classInjection kind owner => s!"{kind} cannot apply to class {owner}"
  | fieldInjection kind site => s!"{kind} cannot apply to field {site}"
  | chainInjection kind site => s!"{kind} cannot intercept method {site}"
  | voidField name => s!"Field {name} cannot have type void"
  | fieldTaken name owner => s!"Field {name} already exists in {owner}"
  | interfaceField owner name =>
    s!"Interface {owner} only accepts public static final fields without computed initializers, " ++
      s!"not {name}"
  | constantType value name type =>
    s!"Constant {value.text} does not fit field {name} of type {type}"
  | specialMethod name => s!"Cannot add special method {name}"
  | interfaceMethod name owner => s!"Cannot add method {name} to interface {owner}"
  | bodilessMethod name => s!"Added method {name} must have a body"
  | methodTaken name descriptor owner => s!"Method {name}{descriptor} already exists in {owner}"
  | accessorField name owner => s!"Accessor names unknown field {name} of {owner}"
  | accessorSpecial name => s!"Accessor cannot bind special method {name}"
  | accessorMethod name descriptor owner =>
    s!"Accessor names unknown method {name}{descriptor} of {owner}"
  | staticAccess method member =>
    s!"Static method {method} cannot access instance member {member}"
  | privateAccess member owner version required =>
    s!"Private member {member} of {owner} needs nest attributes " ++
      s!"(class version {version}, required {required})"
  | initializerSite site => s!"Cannot intercept initializer {site}"
  | interfaceSite site owner => s!"Cannot intercept {site} declared in interface {owner}"
  | codelessSite site => s!"Cannot intercept {site} without bytecode"
  | otherImage planned found => s!"plan for {planned} applied to a different image of {found}"
  | wrongTarget visitor given target site =>
    s!"visitor '{visitor}' returned a {given.word} injection for {target.word} '{site}'"
  | unrealizable visitor kind site =>
    s!"visitor '{visitor}' returned {kind} for '{site}', which the backend cannot realize"
  | other text => text

end Incompatible

/-- What a callback token stands for. -/
inductive CallbackKind where
  | interception | addedMethod | initializer
  deriving DecidableEq, Inhabited

/-- The kind of callback in words. -/
def CallbackKind.text : CallbackKind → String
  | interception => "interception"
  | addedMethod => "added method"
  | initializer => "field initializer"

/-- Why a token does not lead to the callback that is asked for. -/
inductive Unresolved where
  | unknownToken (token : String)
  | mismatch (token : String) (found expected : CallbackKind)
  | other (text : String)
  deriving Inhabited

namespace Unresolved

/-- The cause in words. -/
def message : Unresolved → String
  | unknownToken token => token
  | mismatch token found expected =>
    s!"{token} names a {found.text}, expected a {expected.text}"
  | other text => text

end Unresolved

/-- What can go wrong with a file. -/
inductive FileFault where
  | notFound
  deriving DecidableEq, Inhabited

/-- The fault in a word. -/
def FileFault.name : FileFault → String
  | notFound => "NotFound"

mutual

/-- Why a class space does not take an image. -/
inductive LoadFault where
  | rejected (cause : Error)
  | unexpectedCode (method : String) (owner : String)
  | missingCode (method : String) (owner : String)
  | stale (previous : Handle) (name : ClassName) (current : Handle)
  | alreadyDefined (name : ClassName)
  | undefined (previous : Handle) (name : ClassName)
  | rename (name : ClassName) (cause : Error)
  | other (text : String)

/-- Anything that can go wrong. -/
inductive Error where
  | malformed (cause : Malformed)
  | outOfBounds
  | notSupported (cause : Unsupported)
  | incompatible (cause : Incompatible)
  | unresolved (cause : Unresolved)
  | loadFailure (cause : LoadFault)
  | file (fault : FileFault)
  | recursionLimit (limit : Nat)

end

instance : Inhabited Error := ⟨.outOfBounds⟩

mutual

/-- The cause in words. -/
def LoadFault.message : LoadFault → String
  | .rejected cause => "rejected image: " ++ cause.text
  | .unexpectedCode method owner => s!"method {method} of {owner} has unexpected code"
  | .missingCode method owner => s!"method {method} of {owner} has no code"
  | .stale previous name current => s!"stale handle {previous}, {name} is now {current}"
  | .alreadyDefined name => s!"{name} is already defined"
  | .undefined previous name => s!"cannot redefine {previous} as {name}"
  | .rename name cause => s!"cannot rename {name}: " ++ cause.text
  | .other text => text

/-- The error in words, its family first. -/
def Error.text : Error → String
  | .malformed cause => "Malformed - " ++ cause.message
  | .outOfBounds => "Out of Bound read would have occurred"
  | .notSupported cause => "Not supported - " ++ cause.message
  | .incompatible cause => "Incompatible configuration - " ++ cause.message
  | .unresolved cause => "Unresolved injection reference - " ++ cause.message
  | .loadFailure cause => "Load failure - " ++ cause.message
  | .file fault => fault.name
  | .recursionLimit limit => s!"Reach the maximum recursion level allowed - {limit}"

end

namespace Error

/-- The error with the errors of a broken image folded into the malformed ones. -/
def toMalformed : Error → Error
  | outOfBounds => malformed .truncatedImage
  | recursionLimit limit => malformed (.annotationDepth limit)
  | notSupported cause => malformed (.unsupported cause)
  | error => error

/-- The error is one of a malformed image or text. -/
def isMalformed : Error → Bool
  | malformed _ => true
  | _ => false

/-- The error in words, with the place where it was noticed. -/
def textAt (place : String) (line : Nat) : Error → String
  | malformed cause => s!"Malformed - {place}:{line}: {cause.message}"
  | outOfBounds => s!"Out of Bound read would have occurred - {place}:{line}"
  | error => error.text

end Error

end Weft
