import Std.Data.HashMap
import Weft.Edit
import Weft.Site.Basic
import Weft.Space.Handle

/-!
# Class spaces

A class space holds defined classes by name. In a space that defines in place, a name is defined
once and then only redefined through its latest handle. In one that makes new classes, each
definition gets a name of its own, behind that of the class in the image.

An image is taken only if it can be decoded and exactly its methods with bodies have code.
-/

namespace Weft

/-- How a space defines classes. -/
inductive DefineMode where
  | inPlace | newClass
  deriving DecidableEq, Repr, Inhabited

/-- The name of the mode. -/
def DefineMode.name : DefineMode → String
  | inPlace => "InPlace"
  | newClass => "NewClass"

/-- A defined class. -/
structure Definition where
  handle : Handle
  image : Bytes
  site : ClassSite
  deriving Inhabited

/-- Defined classes by name. -/
structure ClassSpace where
  mode : DefineMode
  classes : Std.HashMap ClassName Definition := ∅
  /-- The number of the next class. -/
  nextId : UInt64 := 1

namespace ClassSpace

/-- The latest definition of a class. -/
def get? (s : ClassSpace) (name : ClassName) : Option Definition := s.classes[name]?

/-- The number of classes. -/
def size (s : ClassSpace) : Nat := s.classes.size

/-- No class is defined. -/
def isEmpty (s : ClassSpace) : Bool := s.classes.isEmpty

/-- The handle of the class that a site shows. -/
def handleOf? (s : ClassSpace) (site : ClassSite) : Option Handle :=
  (s.get? site.name).map (·.handle)

/-- The step of a definition, whose errors mean that the image is rejected. -/
def orRejected {α : Type} (r : Except Error α) : Except Error α :=
  r.mapError fun e => .loadFailure (.rejected e)

/-- Fails unless a method has code exactly if it is neither abstract nor native. -/
def checkMethod (c : ClassFile) (m : Member) : Except Error Unit := do
  let bodiless := m.access.hasAny (.accAbstract ∪ .accNative)
  if bodiless == m.code?.isSome then
    let method := (c.pool.utf8? m.name).getD "?"
    let owner := (c.name.toOption.map toString).getD ""
    if bodiless then throw (.loadFailure (.unexpectedCode method owner))
    else throw (.loadFailure (.missingCode method owner))

/-- The class in an image that a space takes. -/
def check (image : Bytes) : Except Error ClassFile := do
  let c ← orRejected (ClassFile.ofBytes {} image)
  c.methods.forM (checkMethod c)
  return c

/-- The site of a class that an image holds. -/
def siteOf (image : Bytes) (c : ClassFile) : Except Error ClassSite :=
  orRejected (ClassSite.ofClass (Digest.sha1 image) 0 c)

/-- The number of a new class. -/
def newId : Edit ClassSpace UInt64 := modifyGet fun s =>
  (s.nextId, { s with nextId := s.nextId + 1 })

/-- Makes a definition the latest of its class. -/
def keep (d : Definition) : Edit ClassSpace Handle := modifyGet fun s =>
  (d.handle, { s with classes := s.classes.insert d.handle.name d })

/-- The handle of the next definition of a class, of which the caller knows `previous?`. -/
def nextHandle (name : ClassName) (previous? : Option Handle) : Edit ClassSpace Handle := do
  match (← get).get? name, previous? with
  | none, none => return ⟨name, 0, ← newId⟩
  | none, some previous => throw (.loadFailure (.undefined previous name))
  | some _, none => throw (.loadFailure (.alreadyDefined name))
  | some ⟨current, _, _⟩, some previous =>
    if current = previous then return ⟨name, current.generation + 1, current.id⟩
    else throw (.loadFailure (.stale previous name current))

/-- Defines a class under its name, or redefines it. -/
def defineInPlace (image : Bytes) (previous? : Option Handle) : Edit ClassSpace Handle := do
  let c ← check image
  let name ← orRejected c.name
  let site ← siteOf image c
  keep ⟨← nextHandle name previous?, image, site⟩

/-- The name of a class that is made from one of that name. -/
def newName (base : ClassName) (id : UInt64) : ClassName :=
  .ofText (base.internal ++ "$Defined" ++ toString id)

/-- The image of a class that was renamed. -/
def renamedImage (base : ClassName) (c : ClassFile) : Except Error Bytes :=
  c.toBytes.mapError fun e => .loadFailure (.rename base e)

/-- Defines a class under a new name, which its image gets too. -/
def defineNew (image : Bytes) : Edit ClassSpace Handle := do
  let c ← check image
  let base ← orRejected c.name
  let id ← newId
  let name := newName base id
  let pool ← orRejected (c.pool.rename c.thisClass name.internal)
  let c := { c with pool }
  let image ← renamedImage base c
  keep ⟨⟨name, 0, id⟩, image, ← siteOf image c⟩

/-- Defines the class in an image, of which the caller knows the definition `previous?`. -/
def define (image : Bytes) (previous? : Option Handle) : Edit ClassSpace Handle := do
  match (← get).mode with
  | .inPlace => defineInPlace image previous?
  | .newClass => defineNew image

end ClassSpace

end Weft
