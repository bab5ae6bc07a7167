import Weft.Text.ModifiedUtf8

/-!
# Reading bytes

A reader takes bytes off the front of its input. A step that fails takes nothing itself, but what
earlier steps took stays taken; numbers are read most significant byte first.
-/

namespace Weft

/-- Bytes to be read, and the number of bytes read before them. -/
structure Input where
  pos : Nat
  rest : Bytes
  deriving Inhabited

/-- The start of a byte sequence. -/
def Input.ofBytes (bytes : Bytes) : Input := ⟨0, bytes⟩

/-- A step of reading. -/
abbrev Reader := EStateM Error Input

namespace Reader

/-- Fails for lack of bytes. -/
def short {α : Type} : Reader α := throw .outOfBounds

/-- The number of bytes read so far. -/
def pos : Reader Nat := return (← get).pos

/-- Some bytes are left. -/
def hasMore : Reader Bool := return !(← get).rest.isEmpty

/-- The next byte, which stays. -/
def peek : Reader UInt8 := do
  match (← get).rest with
  | b :: _ => return b
  | [] => short

/-- A byte. -/
def u8 : Reader UInt8 := fun s =>
  match s.rest with
  | b :: rest => .ok b ⟨s.pos + 1, rest⟩
  | [] => .error .outOfBounds s

/-- A number of sixteen bits. -/
def u16 : Reader UInt16 := fun s =>
  match s.rest with
  | a :: b :: rest => .ok (Bytes.toU16 a b) ⟨s.pos + 2, rest⟩
  | _ => .error .outOfBounds s

/-- A number of thirty-two bits. -/
def u32 : Reader UInt32 := fun s =>
  match s.rest with
  | a :: b :: c :: d :: rest => .ok (Bytes.toU32 a b c d) ⟨s.pos + 4, rest⟩
  | _ => .error .outOfBounds s

/-- A number of sixty-four bits. -/
def u64 : Reader UInt64 := fun s =>
  match s.rest with
  | a :: b :: c :: d :: e :: f :: g :: h :: rest =>
    .ok (Bytes.toU64 (Bytes.toU32 a b c d) (Bytes.toU32 e f g h)) ⟨s.pos + 8, rest⟩
  | _ => .error .outOfBounds s

/-- A signed byte. -/
def i8 : Reader Int8 := return (← u8).toInt8

/-- A signed number of sixteen bits. -/
def i16 : Reader Int16 := return (← u16).toInt16

/-- A signed number of thirty-two bits. -/
def i32 : Reader Int32 := return (← u32).toInt32

/-- A signed number of sixty-four bits. -/
def i64 : Reader Int64 := return (← u64).toInt64

/-- That many bytes. -/
def bytes (n : Nat) : Reader Bytes := fun s =>
  match s.rest.splitAt? n with
  | some (taken, rest) => .ok taken ⟨s.pos + n, rest⟩
  | none => .error .outOfBounds s

/-- Bytes behind their number in thirty-two bits. -/
def block : Reader Bytes := do bytes (← u32).toNat

/-- That many items. -/
def times {α : Type} (n : Nat) (item : Reader α) : Reader (List α) :=
  go n []
where
  /-- Reads items behind those of `acc`, which is in reverse. -/
  go : Nat → List α → Reader (List α)
    | 0, acc => return acc.reverse
    | n + 1, acc => do
      let a ← item
      go n (a :: acc)

/-- Items behind their number in sixteen bits. -/
def table {α : Type} (item : Reader α) : Reader (List α) := do times (← u16).toNat item

/-- Modified UTF-8 behind its length in sixteen bits. -/
def text : Reader String := do
  let encoded ← bytes (← u16).toNat
  match Text.decodeModified encoded with
  | .ok s => return s
  | .error cause => throw (.malformed cause)

/-- Reads with `reader`, or fails and takes nothing. -/
def transaction {α : Type} (reader : Reader α) : Reader α := fun s =>
  match reader s with
  | .ok a s => .ok a s
  | .error e _ => .error e s

/-- Reads a byte sequence from its start, up to wherever `reader` stops. -/
def parse {α : Type} (reader : Reader α) (bytes : Bytes) : Except Error α :=
  match reader (.ofBytes bytes) with
  | .ok a _ => .ok a
  | .error e _ => .error e

end Reader

end Weft
