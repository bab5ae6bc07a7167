import Std.Data.HashMap
import Weft.Code.Body
import Weft.Error

/-!
# The layout of code

Each item of code stands at the sum of the sizes of those before it. A jump has a distance of
sixteen bits as long as that reaches its target; a round of layout widens the jumps that do not
reach, which moves what follows them, and rounds go on until none is widened.
-/

namespace Weft

/-- The bytes between an opcode at `offset` and the next multiple of four. -/
def switchPadding (offset : Nat) : Nat :=
  (4 - (offset + 1) % 4) % 4

/-- A local slot that takes two bytes. -/
def isWideIndex (index : UInt16) : Bool := index > 255

/-- A number that fits in a signed byte. -/
def fitsByte (n : Int16) : Bool := -128 ≤ n && n ≤ 127

/-- The bytes of an instruction at `offset`; a `wide` jump has a distance of thirty-two bits. -/
def Instruction.size (offset : Nat) (wide : Bool) (i : Instruction) : Nat :=
  match i.operand with
  | .none => 1
  | .byte _ | .arrayType _ => 2
  | .short _ => 3
  | .local index => if isWideIndex index then 4 else 2
  | .increment index delta => if isWideIndex index || !fitsByte delta then 6 else 3
  | .constant index => if i.opcode = .ldc && index ≤ 255 then 2 else 3
  | .invokeInterface .. | .invokeDynamic _ => 5
  | .multiArray .. => 4
  | .branch _ => if wide then 5 else 3
  | .tableSwitch _ _ targets => 1 + switchPadding offset + 12 + 4 * targets.length
  | .lookupSwitch _ pairs => 1 + switchPadding offset + 8 + 8 * pairs.length

/-- An item of code with the width of its distance. -/
structure Sized where
  item : Item
  wide : Bool := false
  deriving DecidableEq, Inhabited

/-- The bytes of an item at `offset`; a label has none. -/
def Sized.size (offset : Nat) (s : Sized) : Nat :=
  match s.item with
  | .label _ => 0
  | .op i => i.size offset s.wide

/-- An item of code with its width and its offset. -/
structure Placed extends Sized where
  offset : Nat
  deriving DecidableEq, Inhabited

/-- A branch that is not wide, and its target. -/
def Placed.narrowBranch? (p : Placed) : Option (Opcode × Label) :=
  match p.item with
  | .op ⟨op, .branch target⟩ => if p.wide then none else some (op, target)
  | _ => none

namespace Layout

/-- Puts each item behind those before it; answers also where the last ends. -/
def place (code : List Sized) : List Placed × Nat :=
  go code 0 []
where
  /-- Puts items from `offset` on behind those of `acc`, which is in reverse. -/
  go : List Sized → Nat → List Placed → List Placed × Nat
    | [], offset, acc => (acc.reverse, offset)
    | s :: rest, offset, acc => go rest (offset + s.size offset) (⟨s, offset⟩ :: acc)

/-- The offsets of the labels; of a label that is placed twice, the last. -/
def labelOffsets (code : List Placed) : Std.HashMap Label Nat :=
  code.foldl (fun m p => match p.item with
    | .label l => m.insert l p.offset
    | .op _ => m) ∅

end Layout

/-- Code with the width and the offset of each item. -/
structure Layout where
  items : List Placed
  size : Nat
  labels : Std.HashMap Label Nat

namespace Layout

/-- The layout of code of which the widths are given. -/
def ofSized (code : List Sized) : Layout :=
  let (items, size) := place code
  ⟨items, size, labelOffsets items⟩

/-- The offset of each item, and behind them that of the end. -/
def offsets (l : Layout) : List Nat :=
  l.items.map (·.offset) ++ [l.size]

/-- The offset of a label. -/
def offsetOf (l : Layout) (label : Label) : Except Error Nat :=
  match l.labels[label]? with
  | some offset => .ok offset
  | none => .error (.malformed (.unplacedLabel label))

/-- The distance from `offset` to a label. -/
def distance (l : Layout) (offset : Nat) (label : Label) : Except Error Int := do
  return (← l.offsetOf label) - (offset : Int)

/-- A distance that sixteen bits can hold. -/
def isShort (distance : Int) : Bool :=
  -32768 ≤ distance && distance ≤ 32767

/-- A jump that has a wide form. -/
def canWiden (op : Opcode) : Bool := op = .goto || op = .jsr

/-- Whether the item has to be widened; a branch without a wide form must not. -/
def widens (l : Layout) (p : Placed) : Except Error Bool :=
  match p.narrowBranch? with
  | none => .ok false
  | some (op, target) => do
    let distance ← l.distance p.offset target
    if isShort distance then return false
    else if canWiden op then return true
    else throw (.notSupported (.branchSpan op distance))

/-- The items, those widened that do not reach their targets, and whether there are such. -/
def widen (l : Layout) : Except Error (List Sized × Bool) := do
  let widened ← l.items.mapM fun p => do return (p.toSized, ← l.widens p)
  return (widened.map fun (s, w) => { s with wide := s.wide || w }, widened.any (·.2))

/-- The most bytes that the code of a method can have. -/
def limit : Nat := 65535

/-- Lays code out until no item has to be widened, in at most `fuel` rounds. -/
def settle : Nat → List Sized → Except Error Layout
  | 0, _ => .error .outOfBounds
  | fuel + 1, code => do
    let l := ofSized code
    if limit < l.size then throw (.notSupported (.bodySize l.size))
    let (widened, changed) ← l.widen
    if changed then settle fuel widened else return l

/-- The item is a jump that has a wide form. -/
def isWidenable : Item → Bool
  | .op ⟨op, .branch _⟩ => canWiden op
  | _ => false

/-- The layout of code. Each round but the last widens a jump, so there is at most one round more
than there are jumps. -/
def ofCode (code : List Item) : Except Error Layout :=
  settle (code.countP isWidenable + 1) (code.map ({ item := · }))

end Layout

end Weft
