import Weft.ClassFile.Basic
import Weft.Digest.Sha1
import Weft.Injection.Kind
import Weft.Signature.Generic
import Weft.Site.AnnotationValue

/-!
# Classes as sites

A site is a place in a program that injections apply to. The site of a class is a read-only view of
its class file in which every name and descriptor is resolved; the class file's bytes identify it.
What generic signatures say is `unknown` where a signature cannot be read.
-/

namespace Weft

/-- What identifies an image: the digest of its bytes. -/
abbrev ArtifactId := Digest.Sha1

/-- What identifies a site. -/
inductive SiteKey where
  | ofClass (artifact : ArtifactId)
  | ofField (artifact : ArtifactId) (index : UInt16)
  | ofMethod (artifact : ArtifactId) (index : UInt16)
  deriving DecidableEq, Hashable, Inhabited

/-- The mark of an injector on a class that it has woven. -/
structure Woven where
  injector : String
  modified : Bool
  deriving DecidableEq, Inhabited

/-- The generic part of a class declaration. -/
structure ClassGenerics where
  typeParameters : List TypeParameter
  superclass : Option GenericType
  interfaces : List GenericType
  deriving Inhabited

/-- A class as a site. -/
structure ClassSite where
  artifact : ArtifactId
  /-- Tells apart the decodings of one image: sites of the same decoding share all their data. -/
  decoding : Nat
  classFile : ClassFile
  name : ClassName
  superName : Option ClassName
  interfaceNames : List ClassName
  fieldTypes : List (String × JType)
  methodTypes : List (String × MethodDescriptor)
  deriving Inhabited

/-- Something is not visible in source text. -/
def Access.isSynthetic (a : Access) : Bool := a.has .accSynthetic

namespace ClassSite

/-- The name and the type of each member, by a reading of its descriptor. -/
def memberTypes {α : Type} (p : Pool) (parse : String → Except Error α) (members : List Member) :
    Except Error (List (String × α)) :=
  members.mapM fun m => do
    let name ← p.utf8 m.name
    return (name, ← parse (← p.utf8 m.descriptor))

/-- The site of a class. -/
def ofClass (artifact : ArtifactId) (decoding : Nat) (c : ClassFile) : Except Error ClassSite :=
  let site : Except Error ClassSite := do
    let name ← c.name
    let superName ← c.superName
    let interfaceNames ← c.interfaceNames
    let fieldTypes ← memberTypes c.pool JType.ofDescriptor c.fields
    let methodTypes ← memberTypes c.pool MethodDescriptor.ofText c.methods
    return ⟨artifact, decoding, c, name, superName, interfaceNames, fieldTypes, methodTypes⟩
  site.mapError Error.toMalformed

/-- The site of the class in an image. -/
def ofBytes (options : DecodeOptions) (decoding : Nat) (image : Bytes) :
    Except Error ClassSite := do
  ofClass (Digest.sha1 image) decoding (← ClassFile.ofBytes options image)

/-- The two sites come from one decoding of one image. -/
def sharesWith (a b : ClassSite) : Bool := a.artifact == b.artifact && a.decoding == b.decoding

/-- The constants of the class. -/
def pool (s : ClassSite) : Pool := s.classFile.pool

/-- The access flags of the class. -/
def access (s : ClassSite) : Access := s.classFile.access

/-- The major version of the class. -/
def majorVersion (s : ClassSite) : UInt16 := s.classFile.majorVersion

/-- What the class is. -/
def kind (s : ClassSite) : ClassKind := .ofAccess s.access

/-- The class is an interface. -/
def isInterface (s : ClassSite) : Bool := s.access.has .accInterface

/-- The class does not appear in source text. -/
def isSynthetic (s : ClassSite) : Bool := s.access.isSynthetic

/-- What identifies the class. -/
def key (s : ClassSite) : SiteKey := .ofClass s.artifact

/-- The class as messages name it. -/
def display (s : ClassSite) : String := toString s.name

/-- The annotations of the class. -/
def annotations (s : ClassSite) : List AnnotationSite :=
  AnnotationSite.collect s.pool s.classFile.attributes

/-- The annotation of that type, named in internal form. -/
def annotationNamed? (s : ClassSite) (typeName : String) : Option AnnotationSite :=
  s.annotations.find? (·.typeName.internal == typeName)

/-- The generic part of the declaration: by the signature, or plain where there is none. -/
def generics (s : ClassSite) : ClassGenerics :=
  let plain (name : ClassName) : GenericType := .plain (.reference name)
  let unresolved : ClassGenerics :=
    ⟨[], s.superName.map fun _ => .unknown, s.interfaceNames.map fun _ => .unknown⟩
  match s.classFile.signature with
  | .ok none => ⟨[], s.superName.map plain, s.interfaceNames.map plain⟩
  | .ok (some text) =>
    match ClassSignature.ofText text with
    | .ok g => ⟨g.typeParameters, s.superName.map fun _ => g.superclass, g.interfaces⟩
    | .error _ => unresolved
  | .error _ => unresolved

/-- The class that this one is a member of, or that it is local to. -/
def enclosing? (s : ClassSite) : Option ClassName :=
  let own? := s.classFile.attributes.findSome? fun a => match a.body with
    | .innerClasses entries =>
      entries.find? fun e => e.inner == s.classFile.thisClass && e.outer != 0
    | _ => none
  match own? with
  | some entry => s.pool.className? entry.outer
  | none => s.classFile.attributes.findSome? fun a => match a.body with
    | .enclosingMethod owner _ => s.pool.className? owner
    | _ => none

/-- The first mark of an injector that names it. -/
def woven? (s : ClassSite) : Option Woven :=
  s.classFile.attributes.findSome? fun a => match a.body with
    | .woven stamp => (s.pool.utf8? stamp.injector).map (⟨·, stamp.modified⟩)
    | _ => none

/-- The class as listings show it. -/
def text (s : ClassSite) : String :=
  Text.labelledOpen "ClassSite" [("name", Text.quote s.name.internal), ("kind", s.kind.text),
    ("artifact", Text.applied "ArtifactId" [s.artifact.hex])]

end ClassSite

end Weft
