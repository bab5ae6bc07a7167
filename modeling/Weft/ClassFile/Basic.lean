import Weft.ClassFile.Attribute

/-!
# Class files

A class file holds the version, the constant pool, the names of the class and its supertypes, its
members and its attributes. Reading refuses an image with one cause, checks that the names resolve
and that nothing follows; writing gives back the bytes.
-/

namespace Weft

/-- The list with its first item that `p` accepts changed by `f`. -/
def updateFirst {α : Type} (p : α → Bool) (f : α → α) : List α → List α
  | [] => []
  | a :: as => if p a then f a :: as else a :: updateFirst p f as

/-- A field or a method of a class file. -/
structure Member where
  access : Access
  name : UInt16
  descriptor : UInt16
  attributes : List Attribute
  deriving Inhabited

/-- A class file. -/
structure ClassFile where
  minorVersion : UInt16
  majorVersion : UInt16
  pool : Pool
  access : Access
  thisClass : UInt16
  superClass : UInt16
  interfaces : List UInt16
  fields : List Member
  methods : List Member
  attributes : List Attribute
  deriving Inhabited

/-- The text of the first signature attribute. -/
def signatureOf (p : Pool) (attributes : List Attribute) : Except Error (Option String) :=
  match attributes.findSome? fun a => match a.body with
      | .signature index => some index
      | _ => none with
  | some index => some <$> p.utf8 index
  | none => .ok none

namespace Member

instance : BEq Member where
  beq a b := a.access == b.access && a.name == b.name && a.descriptor == b.descriptor &&
    a.attributes == b.attributes

/-- A member without attributes; its name and descriptor are added to the pool. -/
def named (access : Access) (name descriptor : String) : StateM Pool Member := do
  let name ← Pool.addUtf8 name
  return ⟨access, name, ← Pool.addUtf8 descriptor, []⟩

/-- The code of a method: that of the first attribute that holds code. -/
def code? (m : Member) : Option CodeAttribute :=
  m.attributes.findSome? (·.body.code?)

/-- The method with other code in its first attribute that holds code. -/
def setCode (code : CodeAttribute) (m : Member) : Member :=
  { m with attributes :=
      updateFirst (·.body.code?.isSome) (fun a => { a with body := .code code }) m.attributes }

/-- The generic signature of the member. -/
def signature (p : Pool) (m : Member) : Except Error (Option String) :=
  signatureOf p m.attributes

/-- The name and the descriptor of the member are those. -/
def isNamed (p : Pool) (name descriptor : String) (m : Member) : Bool :=
  (p.utf8 m.name).toOption == some name && (p.utf8 m.descriptor).toOption == some descriptor

/-- Reads a member. -/
def read (options : DecodeOptions) (p : Pool) (depth : Nat) : Reader Member := do
  let access ← Reader.u16
  let name ← Reader.u16
  let descriptor ← Reader.u16
  let attributes ← Attribute.readTable options p depth
  match (do let _ ← p.utf8 name; p.utf8 descriptor : Except Error String) with
  | .ok _ => return ⟨⟨access⟩, name, descriptor, attributes⟩
  | .error e => throw e

/-- The bytes of a member. -/
def write (m : Member) : Except Error Bytes := do
  let attributes ← attributeTableBytes m.attributes
  return Bytes.ofU16 m.access.bits ++
    (Bytes.ofU16 m.name ++ (Bytes.ofU16 m.descriptor ++ attributes))

/-- The bytes of members behind their number. -/
def writeAll (members : List Member) : Except Error Bytes := do
  let n := members.length
  if n < 65536 then
    let parts ← members.mapM write
    return Bytes.ofU16 (UInt16.ofNat n) ++ parts.flatten
  else throw (.notSupported (.tableSize n))

end Member

namespace ClassFile

/-- The number that images begin with. -/
def magic : UInt32 := 0xCAFEBABE

/-- The least major version of images. -/
def leastVersion : UInt16 := 45

instance : BEq ClassFile where
  beq a b := a.minorVersion == b.minorVersion && a.majorVersion == b.majorVersion &&
    a.pool == b.pool && a.access == b.access && a.thisClass == b.thisClass &&
    a.superClass == b.superClass && a.interfaces == b.interfaces && a.fields == b.fields &&
    a.methods == b.methods && a.attributes == b.attributes

/-- A class without members. -/
def make (name : String) (superName : Option String) (access : Access) (majorVersion : UInt16) :
    ClassFile :=
  let (thisClass, p) := Pool.addClass name .empty
  let (superClass, p) := match superName with
    | some s => Pool.addClass s p
    | none => (0, p)
  ⟨0, majorVersion, p, access, thisClass, superClass, [], [], [], []⟩

/-- The name of the class. -/
def name (c : ClassFile) : Except Error ClassName :=
  c.pool.className c.thisClass

/-- The name of the superclass, which the root of all classes has not. -/
def superName (c : ClassFile) : Except Error (Option ClassName) :=
  if c.superClass = 0 then .ok none else some <$> c.pool.className c.superClass

/-- The names of the interfaces. -/
def interfaceNames (c : ClassFile) : Except Error (List ClassName) :=
  c.interfaces.mapM c.pool.className

/-- The generic signature of the class. -/
def signature (c : ClassFile) : Except Error (Option String) :=
  signatureOf c.pool c.attributes

/-- The position of the first method of that name and descriptor. -/
def findMethod? (c : ClassFile) (name descriptor : String) : Option Nat :=
  c.methods.findIdx? (·.isNamed c.pool name descriptor)

/-- The position of the first field of that name. -/
def findField? (c : ClassFile) (name : String) : Option Nat :=
  c.fields.findIdx? fun f => (c.pool.utf8 f.name).toOption == some name

/-- The class names a nest host. -/
def hasNestHost (c : ClassFile) : Bool :=
  c.attributes.any (·.body.isNestHost)

/-! ## Editing -/

/-- Runs an addition to the pool of a class. -/
def onPool {α : Type} (add : StateM Pool α) : StateM ClassFile α := fun c =>
  let (a, pool) := add c.pool
  (a, { c with pool })

/-- Appends an attribute. -/
def addAttribute (name : String) (body : AttributeBody) (c : ClassFile) : ClassFile :=
  let (a, pool) := Attribute.named name body c.pool
  { c with pool, attributes := c.attributes ++ [a] }

/-- Gives the first attribute of that name another body, or appends one. -/
def setAttribute (name : String) (body : AttributeBody) (c : ClassFile) : ClassFile :=
  let (index, pool) := Pool.addUtf8 name c.pool
  let attributes :=
    if c.attributes.any (·.name == index) then
      updateFirst (·.name == index) (fun a => { a with body }) c.attributes
    else c.attributes ++ [⟨index, body⟩]
  { c with pool, attributes }

/-- Appends equal fields without attributes. -/
def addFields (n : Nat) (access : Access) (name descriptor : String) (c : ClassFile) : ClassFile :=
  if n = 0 then c
  else
    let (m, pool) := Member.named access name descriptor c.pool
    { c with pool, fields := c.fields ++ List.replicate n m }

/-- Appends a method without attributes. -/
def addMethod (access : Access) (name descriptor : String) (c : ClassFile) : ClassFile :=
  let (m, pool) := Member.named access name descriptor c.pool
  { c with pool, methods := c.methods ++ [m] }

/-- Appends an attribute to the last method, if there is one. -/
def addMethodAttribute (name : String) (body : AttributeBody) (c : ClassFile) : ClassFile :=
  let (a, pool) := Attribute.named name body c.pool
  { c with pool, methods := c.methods.modify (c.methods.length - 1) fun m =>
      { m with attributes := m.attributes ++ [a] } }

/-- Appends an interface, and answers its index. -/
def addInterface (name : String) : StateM ClassFile UInt16 := fun c =>
  let (index, pool) := Pool.addClass name c.pool
  (index, { c with pool, interfaces := c.interfaces ++ [index] })

/-! ## Reading and writing -/

/-- Reads a class file whose image is `length` bytes long. -/
def read (options : DecodeOptions) (length : Nat) : Reader ClassFile := do
  if length = 0 then throw (.malformed .emptyImage)
  let found ← Reader.u32
  if found != magic then throw (.malformed (.magic found))
  let minorVersion ← Reader.u16
  let majorVersion ← Reader.u16
  if majorVersion < leastVersion then throw (.malformed (.majorVersion majorVersion))
  let pool ← Pool.read
  let access ← Reader.u16
  let thisClass ← Reader.u16
  let superClass ← Reader.u16
  let interfaces ← Reader.table Reader.u16
  let fields ← Reader.table (Member.read options pool length)
  let methods ← Reader.table (Member.read options pool length)
  let attributes ← Attribute.readTable options pool length
  let rest := (← get).rest
  if !rest.isEmpty then throw (.malformed (.classTail rest.length))
  return ⟨minorVersion, majorVersion, pool, ⟨access⟩, thisClass, superClass, interfaces, fields,
    methods, attributes⟩

/-- The class resolves its own name and those of its supertypes. -/
def checkNames (c : ClassFile) : Except Error Unit := do
  let _ ← c.name
  let _ ← c.superName
  let _ ← c.interfaceNames

/-- The class file of an image. -/
def ofBytes (options : DecodeOptions) (image : Bytes) : Except Error ClassFile :=
  let decoded : Except Error ClassFile := do
    let c ← (read options image.length).parse image
    c.checkNames
    return c
  decoded.mapError Error.toMalformed

/-- The class file in a file with that content, or in a file that is missing. -/
def ofFile (options : DecodeOptions) : Option Bytes → Except Error ClassFile
  | some image => ofBytes options image
  | none => .error (.file .notFound)

/-- The image of a class file. -/
def toBytes (c : ClassFile) : Except Error Bytes := do
  let pool ← c.pool.write
  let interfaces ← tableBytes Bytes.ofU16 c.interfaces
  let fields ← Member.writeAll c.fields
  let methods ← Member.writeAll c.methods
  let attributes ← attributeTableBytes c.attributes
  return Bytes.ofU32 magic ++ ([c.minorVersion, c.majorVersion].flatMap Bytes.ofU16 ++ (pool ++
    ([c.access.bits, c.thisClass, c.superClass].flatMap Bytes.ofU16 ++ (interfaces ++
      (fields ++ (methods ++ attributes))))))

end ClassFile

end Weft
