import Weft.Bytes.Reader

/-!
# Annotations in images

An annotation is a type with named elements; an element is a constant, an enumeration constant, a
class, an annotation or an array of elements. Elements stand at depth one, the members of an array
and the elements of a nested annotation one deeper than what holds them. Reading is given the
greatest depth and counts the levels that are left.
-/

namespace Weft

/-- The value of an annotation element. -/
inductive ElementValue where
  | const (tag : UInt8) (index : UInt16)
  | enum (typeName constName : UInt16)
  | classInfo (index : UInt16)
  | nested (type : UInt16) (elements : List (UInt16 × ElementValue))
  | array (items : List ElementValue)
  deriving Inhabited

/-- An annotation: its type and its elements by name. -/
structure AnnotationData where
  type : UInt16
  elements : List (UInt16 × ElementValue)
  deriving Inhabited

/-- The bytes of a count, which keeps its low sixteen bits. -/
def Bytes.ofCount (n : Nat) : Bytes := ofU16 (UInt16.ofNat n)

namespace ElementValue

mutual

/-- The two values are the same. -/
def beq : ElementValue → ElementValue → Bool
  | const s i, const t j => s == t && i == j
  | enum s i, enum t j => s == t && i == j
  | classInfo i, classInfo j => i == j
  | nested s es, nested t fs => s == t && beqNamed es fs
  | array xs, array ys => beqList xs ys
  | _, _ => false

/-- The two lists hold the same values under the same names. -/
def beqNamed : List (UInt16 × ElementValue) → List (UInt16 × ElementValue) → Bool
  | [], [] => true
  | (m, x) :: xs, (n, y) :: ys => m == n && x.beq y && beqNamed xs ys
  | _, _ => false

/-- The two lists hold the same values. -/
def beqList : List ElementValue → List ElementValue → Bool
  | [], [] => true
  | x :: xs, y :: ys => x.beq y && beqList xs ys
  | _, _ => false

end

instance : BEq ElementValue := ⟨beq⟩

/-- The tag is that of a constant. -/
def isConstTag (tag : UInt8) : Bool :=
  ['B', 'C', 'D', 'F', 'I', 'J', 'S', 'Z', 's'].contains (Char.ofNat tag.toNat)

/-- Reads a value with that many levels left of the `limit`. -/
def read (limit : Nat) : Nat → Reader ElementValue
  | 0 => throw (.recursionLimit limit)
  | levels + 1 => do
    let tag ← Reader.u8
    if isConstTag tag then return const tag (← Reader.u16)
    else
      match Char.ofNat tag.toNat with
      | 'e' => return enum (← Reader.u16) (← Reader.u16)
      | 'c' => return classInfo (← Reader.u16)
      | '@' =>
        let type ← Reader.u16
        return nested type (← Reader.table do return (← Reader.u16, ← read limit levels))
      | '[' => return array (← Reader.table (read limit levels))
      | _ => throw (.malformed (.elementTag tag))

mutual

/-- The bytes of a value. -/
def write : ElementValue → Bytes
  | const tag index => tag :: Bytes.ofU16 index
  | enum typeName constName => 'e'.toUInt8 :: Bytes.ofU16 typeName ++ Bytes.ofU16 constName
  | classInfo index => 'c'.toUInt8 :: Bytes.ofU16 index
  | nested type elements =>
    '@'.toUInt8 :: Bytes.ofU16 type ++ (Bytes.ofCount elements.length ++ writeNamed elements)
  | array items => '['.toUInt8 :: Bytes.ofCount items.length ++ writeList items

/-- The bytes of named values. -/
def writeNamed : List (UInt16 × ElementValue) → Bytes
  | [] => []
  | (name, value) :: rest => Bytes.ofU16 name ++ (value.write ++ writeNamed rest)

/-- The bytes of values. -/
def writeList : List ElementValue → Bytes
  | [] => []
  | value :: rest => value.write ++ writeList rest

end

end ElementValue

namespace AnnotationData

instance : BEq AnnotationData :=
  ⟨fun a b => a.type == b.type && ElementValue.beqNamed a.elements b.elements⟩

/-- Reads an annotation whose values may nest `limit` deep. -/
def read (limit : Nat) : Reader AnnotationData := do
  let type ← Reader.u16
  let elements ← Reader.table do return (← Reader.u16, ← ElementValue.read limit limit)
  return ⟨type, elements⟩

/-- The bytes of an annotation. -/
def write (a : AnnotationData) : Bytes :=
  Bytes.ofU16 a.type ++ (Bytes.ofCount a.elements.length ++ ElementValue.writeNamed a.elements)

end AnnotationData

end Weft
