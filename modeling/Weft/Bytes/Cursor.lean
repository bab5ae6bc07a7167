import Weft.Bytes.Reader

/-!
# Cursors

A cursor moves freely over a byte sequence and reads from where it stands.
-/

namespace Weft

/-- A position in a byte sequence. -/
structure Cursor where
  data : Bytes
  input : Input

namespace Cursor

/-- The start of a byte sequence. -/
def ofBytes (data : Bytes) : Cursor := ⟨data, .ofBytes data⟩

/-- The cursor at another position. -/
def moveTo (pos : Nat) (c : Cursor) : Cursor := { c with input := ⟨pos, c.data.drop pos⟩ }

/-- Moves to a position that is not behind the end. -/
def seek (pos : Nat) : EStateM Error Cursor Unit := fun c =>
  if pos ≤ c.data.length then .ok () (c.moveTo pos) else .error .outOfBounds c

/-- Moves ahead, not behind the end. -/
def advance (n : Nat) : EStateM Error Cursor Unit := fun c => seek (c.input.pos + n) c

/-- The number of bytes from `pos` to the next multiple of `alignment` behind `base`; positions
before `base` count from the end of the sixty-four bit range. -/
def paddingFrom (base alignment pos : Nat) : Nat :=
  let relative := (UInt64.size + pos - base) % UInt64.size
  (alignment - relative % alignment) % alignment

/-- Moves ahead to a multiple of `alignment` behind `base`. -/
def align (base alignment : Nat) : EStateM Error Cursor Unit := fun c =>
  advance (paddingFrom base alignment c.input.pos) c

/-- Reads from where the cursor stands. -/
def read {α : Type} (reader : Reader α) : EStateM Error Cursor α := fun c =>
  match reader c.input with
  | .ok a input => .ok a { c with input }
  | .error e input => .error e { c with input }

/-- Takes the steps of `run`, or fails and stays where it is. -/
def transaction {α : Type} (run : EStateM Error Cursor α) : EStateM Error Cursor α := fun c =>
  match run c with
  | .ok a c' => .ok a c'
  | .error e _ => .error e c

end Cursor

end Weft
