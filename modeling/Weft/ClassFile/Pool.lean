import Std.Data.HashMap
import Weft.Bytes.Reader
import Weft.ClassFile.Constant

/-!
# Constant pools

A pool is a sequence of constants in which slot zero, and the slot behind each wide constant, is
unusable. Adding a constant that the pool remembers answers its index; the pool remembers one index
for each constant, the first that it was given. An index is kept in sixteen bits.
-/

namespace Weft

/-- A member that a constant refers to. -/
structure MemberRef where
  owner : ClassName
  name : String
  descriptor : String
  isInterface : Bool
  deriving DecidableEq, Inhabited

/-- A constant pool with the index that it remembers for each constant. -/
structure Pool where
  entries : Array Constant
  lookup : Std.HashMap Constant UInt16

namespace Pool

/-- The pool without constants. -/
def empty : Pool := ⟨#[.unusable], ∅⟩

instance : Inhabited Pool := ⟨empty⟩

/-- Pools are compared by their constants. -/
instance : BEq Pool := ⟨fun a b => a.entries == b.entries⟩

/-- The number of slots. -/
def size (p : Pool) : Nat := p.entries.size

/-- The pool has no constants. -/
def isEmpty (p : Pool) : Bool := p.size ≤ 1

/-- Adds a constant at the end; the index of an equal one that is remembered stays. -/
def push (c : Constant) (p : Pool) : UInt16 × Pool :=
  let index := UInt16.ofNat p.entries.size
  let entries := p.entries.push c
  (index, ⟨if c.isWide then entries.push .unusable else entries, p.lookup.insertIfNew c index⟩)

/-- The index of a constant, which is added unless the pool remembers it. -/
def intern (c : Constant) : StateM Pool UInt16 := fun p =>
  match p.lookup[c]? with
  | some index => (index, p)
  | none => p.push c

/-! ## Looking constants up -/

/-- The constant at an index. -/
def get (p : Pool) (index : UInt16) : Except Error Constant :=
  match p.entries[index.toNat]? with
  | some .unusable | none => .error (.malformed (.poolIndex index p.size))
  | some c => .ok c

/-- The error of finding another constant than was expected. -/
def mismatch {α : Type} (role : PoolRole) (index : UInt16) (found : Constant) : Except Error α :=
  .error (.malformed (.poolRole role index found))

/-- The text at an index. -/
def utf8 (p : Pool) (index : UInt16) : Except Error String := do
  match ← p.get index with
  | .utf8 text => return text
  | found => mismatch .utf8 index found

/-- The name of the class at an index. -/
def className (p : Pool) (index : UInt16) : Except Error ClassName := do
  match ← p.get index with
  | .classRef name => return .ofText (← p.utf8 name)
  | found => mismatch .classRef index found

/-- The name and the descriptor at an index. -/
def nameAndType (p : Pool) (index : UInt16) : Except Error (String × String) := do
  match ← p.get index with
  | .nameAndType name descriptor =>
    let name ← p.utf8 name
    return (name, ← p.utf8 descriptor)
  | found => mismatch .nameAndType index found

/-- The member at an index. -/
def memberRef (p : Pool) (index : UInt16) : Except Error MemberRef := do
  match ← p.get index with
  | .fieldRef owner nat | .methodRef owner nat => resolve owner nat false
  | .interfaceMethodRef owner nat => resolve owner nat true
  | found => mismatch .memberRef index found
where
  /-- The member with that owner, name and type. -/
  resolve (owner nat : UInt16) (isInterface : Bool) : Except Error MemberRef := do
    let (name, descriptor) ← p.nameAndType nat
    return ⟨← p.className owner, name, descriptor, isInterface⟩

/-- The literal at an index. -/
def literal (p : Pool) (index : UInt16) : Except Error Literal := do
  match ← p.get index with
  | .integer v => return .int v
  | .long v => return .long v
  | .float bits => return .float bits
  | .double bits => return .double bits
  | .string text => return .string (← p.utf8 text)
  | found => mismatch .literal index found

/-- The usable constants with their indices, in order. -/
def constants (p : Pool) : List (Nat × Constant) :=
  p.entries.toList.zipIdx.filterMap fun (c, i) => if c = .unusable then none else some (i, c)

/-! ## Adding constants -/

/-- The index of a text. -/
def addUtf8 (text : String) : StateM Pool UInt16 := intern (.utf8 text)

/-- The index of a class, by the name as it is to be written. -/
def addClass (name : String) : StateM Pool UInt16 := do intern (.classRef (← addUtf8 name))

/-- The index of a string. -/
def addString (text : String) : StateM Pool UInt16 := do intern (.string (← addUtf8 text))

/-- The index of a literal. -/
def addLiteral : Literal → StateM Pool UInt16
  | .int v => intern (.integer v)
  | .long v => intern (.long v)
  | .float bits => intern (.float bits)
  | .double bits => intern (.double bits)
  | .string text => addString text

/-- The index of a name and a descriptor. -/
def addNameAndType (name descriptor : String) : StateM Pool UInt16 := do
  let name ← addUtf8 name
  intern (.nameAndType name (← addUtf8 descriptor))

/-- The index of a field. -/
def addFieldRef (owner name descriptor : String) : StateM Pool UInt16 := do
  let owner ← addClass owner
  intern (.fieldRef owner (← addNameAndType name descriptor))

/-- The index of a method of a class, or of an interface. -/
def addMethodRef (owner name descriptor : String) (isInterface : Bool) : StateM Pool UInt16 := do
  let owner ← addClass owner
  let nat ← addNameAndType name descriptor
  intern (if isInterface then .interfaceMethodRef owner nat else .methodRef owner nat)

/-- The pool in which `new` stands at `index` in place of `old`. What is remembered for `old` is
forgotten if it is this index. -/
def replace (p : Pool) (index : UInt16) (old new : Constant) : Pool :=
  let kept := if p.lookup[old]? = some index then p.lookup.erase old else p.lookup
  ⟨p.entries.setIfInBounds index.toNat new, kept.insertIfNew new index⟩

/-- Gives the class at an index another name. -/
def rename (p : Pool) (index : UInt16) (name : String) : Except Error Pool := do
  match ← p.get index with
  | old@(.classRef _) =>
    let (name, p) := addUtf8 name p
    return p.replace index old (.classRef name)
  | _ => throw (.malformed (.notClass index))

/-! ## Reading and writing -/

/-- The rest of a constant behind its tag, which stands at slot `index`. -/
def readConstant (tag : UInt8) (index : Nat) : Reader Constant := do
  match tag with
  | 1 => return .utf8 (← Reader.text)
  | 3 => return .integer (← Reader.i32)
  | 4 => return .float (← Reader.u32)
  | 5 => return .long (← Reader.i64)
  | 6 => return .double (← Reader.u64)
  | 7 => return .classRef (← Reader.u16)
  | 8 => return .string (← Reader.u16)
  | 9 => return .fieldRef (← Reader.u16) (← Reader.u16)
  | 10 => return .methodRef (← Reader.u16) (← Reader.u16)
  | 11 => return .interfaceMethodRef (← Reader.u16) (← Reader.u16)
  | 12 => return .nameAndType (← Reader.u16) (← Reader.u16)
  | 15 => return .methodHandle (← Reader.u8) (← Reader.u16)
  | 16 => return .methodType (← Reader.u16)
  | 17 => return .dynamic (← Reader.u16) (← Reader.u16)
  | 18 => return .invokeDynamic (← Reader.u16) (← Reader.u16)
  | 19 => return .module (← Reader.u16)
  | 20 => return .package (← Reader.u16)
  | _ => throw (.malformed (.constantTag tag index))

/-- Reads constants until the pool has `count` slots; each takes at least one of `fuel`. -/
def fill (count : Nat) : Nat → Pool → Reader Pool
  | 0, p => return p
  | fuel + 1, p => do
    if p.size < count then
      let tag ← Reader.u8
      let c ← readConstant tag p.size
      fill count fuel (p.push c).2
    else return p

/-- Reads a pool. -/
def read : Reader Pool := do
  let count ← Reader.u16
  if count = 0 then throw (.malformed .emptyPool)
  let p ← fill count.toNat count.toNat empty
  if p.size != count.toNat then throw (.malformed (.wideOverrun count))
  return p

/-- The bytes of a constant; an unusable slot has none. -/
def constantBytes : Constant → Except Error Bytes
  | .unusable => .ok []
  | .utf8 text =>
    let encoded := Text.encodeModified text
    if encoded.length < 65536 then
      .ok (1 :: Bytes.ofU16 (UInt16.ofNat encoded.length) ++ encoded)
    else .error (.notSupported .textSize)
  | .integer v => .ok (3 :: Bytes.ofU32 v.toUInt32)
  | .float bits => .ok (4 :: Bytes.ofU32 bits)
  | .long v => .ok (5 :: Bytes.ofU64 v.toUInt64)
  | .double bits => .ok (6 :: Bytes.ofU64 bits)
  | .classRef name => .ok (7 :: Bytes.ofU16 name)
  | .string text => .ok (8 :: Bytes.ofU16 text)
  | .fieldRef owner nat => .ok (9 :: Bytes.ofU16 owner ++ Bytes.ofU16 nat)
  | .methodRef owner nat => .ok (10 :: Bytes.ofU16 owner ++ Bytes.ofU16 nat)
  | .interfaceMethodRef owner nat => .ok (11 :: Bytes.ofU16 owner ++ Bytes.ofU16 nat)
  | .nameAndType name descriptor => .ok (12 :: Bytes.ofU16 name ++ Bytes.ofU16 descriptor)
  | .methodHandle kind reference => .ok (15 :: kind :: Bytes.ofU16 reference)
  | .methodType descriptor => .ok (16 :: Bytes.ofU16 descriptor)
  | .dynamic bootstrap nat => .ok (17 :: Bytes.ofU16 bootstrap ++ Bytes.ofU16 nat)
  | .invokeDynamic bootstrap nat => .ok (18 :: Bytes.ofU16 bootstrap ++ Bytes.ofU16 nat)
  | .module name => .ok (19 :: Bytes.ofU16 name)
  | .package name => .ok (20 :: Bytes.ofU16 name)

/-- The bytes of the pool. -/
def write (p : Pool) : Except Error Bytes := do
  if p.size < 65536 then
    let parts ← p.entries.toList.mapM constantBytes
    return Bytes.ofU16 (UInt16.ofNat p.size) ++ parts.flatten
  else throw (.notSupported .poolSize)

end Pool

end Weft
