import Weft.Error

/-!
# Scanning descriptor and signature text

A scanner stands at a byte of the UTF-8 form of a text. Every delimiter of descriptors and
signatures is ASCII, so identifiers are taken character by character; a byte that is shown or
skipped on its own is the Latin-1 character of its value, and a scanner may come to stand inside a
character after such a byte. A failed step keeps what it has consumed.
-/

namespace Weft

/-- A position in a text of `length` bytes: the bytes before it, those left of a character begun,
and the rest. -/
structure Scanner where
  length : Nat
  pos : Nat
  tail : List UInt8
  rest : List Char
  deriving DecidableEq, Inhabited

/-- A step of scanning. -/
abbrev Scan := EStateM Error Scanner

namespace Scanner

/-- The start of a text. -/
def ofText (text : String) : Scanner := ⟨text.utf8ByteSize, 0, [], text.toList⟩

/-- Nothing is left. -/
def atEnd (s : Scanner) : Bool :=
  s.tail.isEmpty && s.rest.isEmpty

/-- A bound on the number of steps that each consume a byte, one more than the bytes left. -/
def fuel (s : Scanner) : Nat :=
  s.length - s.pos + 1

/-- The next byte, as a Latin-1 character, and the position after it. -/
def uncons? (s : Scanner) : Option (Char × Scanner) :=
  match s.tail with
  | b :: tail => some (Char.ofNat b.toNat, { s with pos := s.pos + 1, tail })
  | [] =>
    match s.rest with
    | [] => none
    | c :: rest =>
      if c.toNat < 0x80 then some (c, { s with pos := s.pos + 1, rest })
      else
        match String.utf8EncodeChar c with
        | [] => none
        | b :: tail => some (Char.ofNat b.toNat, { s with pos := s.pos + 1, tail, rest })

/-- The position after `n` ASCII characters. -/
def skip (n : Nat) (s : Scanner) : Scanner :=
  { s with pos := s.pos + n, rest := s.rest.drop n }

end Scanner

namespace Scan

open Scanner

/-- The bytes consumed so far. -/
def pos : Scan Nat := return (← get).pos

/-- The next byte without consuming it. -/
def peek : Scan Char := do
  match (← get).uncons? with
  | some (c, _) => return c
  | none => throw .outOfBounds

/-- Consumes the next byte. -/
def next : Scan Char := do
  match (← get).uncons? with
  | some (c, s) => set s; return c
  | none => throw .outOfBounds

/-- Consumes the next byte, which has to be `expected`. -/
def expect (expected : Char) : Scan Unit := do
  let found ← next
  if found != expected then
    throw (.malformed (.unexpectedCharacter expected found ((← pos) - 1)))

/-- Consumes the next byte if it is `c`, and tells whether it was. -/
def accept (c : Char) : Scan Bool := do
  if (← peek) == c then
    let _ ← next
    return true
  else return false

/-- Nothing may follow. -/
def finish : Scan Unit := do
  if !(← get).atEnd then throw (.malformed (.trailingCharacters (← pos)))

/-- The characters before the first of `stops`, at least one. -/
def identifier (stops : List Char) : Scan String := do
  let s ← get
  let name := s.rest.takeWhile fun c => !stops.contains c
  let rest := s.rest.dropWhile fun c => !stops.contains c
  set { s with pos := s.pos + (String.ofList name).utf8ByteSize, tail := [], rest }
  if rest.isEmpty then throw .outOfBounds
  else if name.isEmpty then throw (.malformed (.emptyIdentifier s.pos))
  else return String.ofList name

/-- The items before `stop`, which stays; `fuel` bounds their number. -/
def untilStop {α : Type} (stop : Char) (item : Scan α) (fuel : Nat) : Scan (List α) :=
  go fuel []
where
  /-- Reads items in front of those of `acc`, which is in reverse. -/
  go : Nat → List α → Scan (List α)
    | 0, _ => throw .outOfBounds
    | fuel + 1, acc => do
      if (← peek) == stop then return acc.reverse
      else
        let a ← item
        go fuel (a :: acc)

/-- The items before `stop`, which stays. An item consumes a byte, so there are no more of them
than bytes. -/
def manyUntil {α : Type} (stop : Char) (item : Scan α) : Scan (List α) := do
  untilStop stop item (← get).fuel

/-- The items up to the end of the text; `fuel` bounds their number. -/
def untilEnd {α : Type} (item : Scan α) (fuel : Nat) : Scan (List α) :=
  go fuel []
where
  /-- Reads items in front of those of `acc`, which is in reverse. -/
  go : Nat → List α → Scan (List α)
    | 0, _ => throw .outOfBounds
    | fuel + 1, acc => do
      if (← get).atEnd then return acc.reverse
      else
        let a ← item
        go fuel (a :: acc)

/-- The items up to the end of the text. An item consumes a byte, so there are no more of them
than bytes. -/
def manyToEnd {α : Type} (item : Scan α) : Scan (List α) := do
  untilEnd item (← get).fuel

/-- Runs a scan over a whole text. -/
def parse {α : Type} (scan : Scan α) (text : String) : Except Error α :=
  match EStateM.run scan (.ofText text) with
  | .ok a _ => .ok a
  | .error e _ => .error e

end Scan

end Weft
