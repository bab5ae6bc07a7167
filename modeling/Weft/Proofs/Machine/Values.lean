import Weft.Signature.JType

/-!
# Values of the machine

The words that code works on are numbers of four kinds and references. A box is an object of the
class that holds values of a primitive type; small types share the numbers of `int`, so that only
some of these numbers can be put into their boxes.
-/

namespace Weft.Machine

/-- The kinds of words that instructions tell apart. -/
inductive WordKind where
  | int | long | float | double | reference
  deriving DecidableEq, Repr, Inhabited

/-- The slots that a word of the kind takes, on the stack and among the locals. -/
def WordKind.slots : WordKind → Nat
  | long | double => 2
  | _ => 1

/-- A number; floating point numbers are kept as bits. -/
inductive Number where
  | int (value : Int32)
  | long (value : Int64)
  | float (bits : UInt32)
  | double (bits : UInt64)
  deriving DecidableEq, Repr, Inhabited

/-- The kind of the number. -/
def Number.kind : Number → WordKind
  | int _ => .int
  | long _ => .long
  | float _ => .float
  | double _ => .double

/-- An object that holds a value of a primitive type. -/
inductive Box where
  | boolean (value : Bool)
  | char (unit : UInt16)
  | byte (value : Int8)
  | short (value : Int16)
  | int (value : Int32)
  | long (value : Int64)
  | float (bits : UInt32)
  | double (bits : UInt64)
  deriving DecidableEq, Repr, Inhabited

namespace Box

/-- The type of the value. -/
def type : Box → Primitive
  | boolean _ => .boolean
  | char _ => .char
  | byte _ => .byte
  | short _ => .short
  | int _ => .int
  | long _ => .long
  | float _ => .float
  | double _ => .double

/-- The value as code works on it. -/
def number : Box → Number
  | boolean value => .int (if value then 1 else 0)
  | char unit => .int unit.toUInt32.toInt32
  | byte value => .int value.toInt32
  | short value => .int value.toInt32
  | int value => .int value
  | long value => .long value
  | float bits => .float bits
  | double bits => .double bits

/-- The box of a type for a number, if the number is a value of the type. -/
def of? : Primitive → Number → Option Box
  | .boolean, .int v =>
    if v = 0 then some (.boolean false) else if v = 1 then some (.boolean true) else none
  | .char, .int v =>
    let unit := v.toUInt32.toUInt16
    if unit.toUInt32.toInt32 = v then some (.char unit) else none
  | .byte, .int v => if v.toInt8.toInt32 = v then some (.byte v.toInt8) else none
  | .short, .int v => if v.toInt16.toInt32 = v then some (.short v.toInt16) else none
  | .int, .int v => some (.int v)
  | .long, .long v => some (.long v)
  | .float, .float bits => some (.float bits)
  | .double, .double bits => some (.double bits)
  | _, _ => none

theorem of?_number (b : Box) : of? b.type b.number = some b := by
  cases b with
  | boolean value => cases value <;> rfl
  | char unit => simp [type, number, of?]
  | byte value => simp [type, number, of?]
  | short value => simp [type, number, of?]
  | _ => rfl

/-- A box gives back the number that was put into it. -/
theorem of?_eq_some {p : Primitive} {n : Number} {b : Box} (h : of? p n = some b) :
    b.type = p ∧ b.number = n := by
  unfold of? at h
  split at h
  · split at h
    · rename_i zero
      cases h
      exact ⟨rfl, zero ▸ rfl⟩
    · split at h
      · rename_i one
        cases h
        exact ⟨rfl, one ▸ rfl⟩
      · cases h
  -- the small types: the number has to survive the narrowing
  · dsimp only at h
    split at h
    · rename_i same
      cases h
      exact ⟨rfl, congrArg Number.int same⟩
    · cases h
  iterate 2
    · split at h
      · rename_i same
        cases h
        exact ⟨rfl, congrArg Number.int same⟩
      · cases h
  all_goals
    cases h
    try exact ⟨rfl, rfl⟩

end Box

/-- A reference to an object, or to none. Texts and boxes are told apart by what they hold, other
objects by where they are. -/
inductive Ref where
  | null
  | text (text : String)
  | box (b : Box)
  | object (address : Nat)
  deriving DecidableEq, Repr, Inhabited

/-- What code works on. -/
inductive Word where
  | number (n : Number)
  | ref (r : Ref)
  deriving DecidableEq, Repr, Inhabited

namespace Word

/-- The kind of the word. -/
def kind : Word → WordKind
  | number n => n.kind
  | ref _ => .reference

/-- The slots that the word takes. -/
def slots (w : Word) : Nat := w.kind.slots

end Word

end Weft.Machine

namespace Weft

open Weft.Machine

/-- The kind of numbers that stand for values of the type. -/
def Primitive.kind : Primitive → WordKind
  | long => .long
  | float => .float
  | double => .double
  | _ => .int

namespace JType

/-- The kind of words that stand for values of the type. -/
def kind? : JType → Option WordKind
  | void => none
  | primitive p => some p.kind
  | _ => some .reference

/-- The word stands for a value of the type. Whether an object is of a class is left open. -/
def Holds : JType → Word → Prop
  | void, _ => False
  | primitive p, w => ∃ b : Box, b.type = p ∧ w = .number b.number
  | _, w => ∃ r, w = .ref r

/-- The word is what a method of the type answers. -/
def Answers (t : JType) : Option Word → Prop
  | none => t = .void
  | some w => t.Holds w

/-- The object for a value of the type: a box of it, or the object itself. -/
def box? : JType → Word → Option Ref
  | primitive p, .number n => (Box.of? p n).map .box
  | reference _, .ref r => some r
  | array .., .ref r => some r
  | _, _ => none

end JType

theorem Machine.Box.kind_number (b : Box) : b.number.kind = b.type.kind := by cases b <;> rfl

theorem Primitive.toNat_slots (p : Primitive) : p.slots.toNat = p.kind.slots := by cases p <;> rfl

namespace JType

theorem toNat_slots {t : JType} {k : WordKind} (h : t.kind? = some k) : t.slots.toNat = k.slots := by
  cases t with
  | void => cases h
  | primitive p =>
    cases h
    exact p.toNat_slots
  | _ =>
    cases h
    rfl

theorem eq_void_of_kind? {t : JType} (h : t.kind? = none) : t = .void := by
  cases t with
  | void => rfl
  | _ => cases h

theorem isVoid_of_kind? {t : JType} {k : WordKind} (h : t.kind? = some k) : t.isVoid = false := by
  cases t with
  | void => cases h
  | _ => rfl

theorem Holds.kind? {t : JType} {w : Word} (h : t.Holds w) : t.kind? = some w.kind := by
  cases t with
  | void => exact h.elim
  | primitive p =>
    obtain ⟨b, rfl, rfl⟩ := h
    exact congrArg some b.kind_number.symm
  | _ =>
    obtain ⟨r, rfl⟩ := h
    rfl

theorem kind?_of_box? {t : JType} {w : Word} {r : Ref} (h : t.box? w = some r) :
    t.kind? = some w.kind := by
  cases w with
  | ref r' => cases t <;> first | rfl | cases h
  | number n =>
    cases t with
    | primitive p =>
      obtain ⟨b, made, -⟩ := Option.map_eq_some_iff.1 h
      obtain ⟨rfl, rfl⟩ := Box.of?_eq_some made
      exact congrArg some b.kind_number.symm
    | _ => cases h

theorem Holds.box? {t : JType} {w : Word} (h : t.Holds w) : ∃ r, t.box? w = some r := by
  cases t with
  | void => exact h.elim
  | primitive p =>
    obtain ⟨b, rfl, rfl⟩ := h
    exact ⟨.box b, by rw [JType.box?, b.of?_number, Option.map_some]⟩
  | _ =>
    obtain ⟨r, rfl⟩ := h
    exact ⟨r, rfl⟩

end JType

end Weft
