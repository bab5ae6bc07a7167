import Weft.ClassFile.Pool
import Weft.Doc.Basic
import Weft.Script.Expr
import Weft.Weave.Planning

/-!
# Numbers in scripts

Helper classes and registries are numbered as they are made, and what is made in a script must not
share its name with what the script's images or texts happen to spell. So the numbers are from a
range that no script spells, and a script sees them as if they started at one: `shown` leads from a
made name to the one that the script sees, `meantToken` and `meantName` lead back.
-/

namespace Weft.Script.Numbering

/-- The number that the first helper and the first registry of a script have; as many numbers are in
the range. -/
def start : Nat := 1000000

/-- What scripts begin with: no callbacks and no helpers. -/
def ledger : Weave.Ledger World := { registry := { number := start }, nextHelper := start }

/-- What stands before the number of a registry in a token. -/
def tokenMarks : List String := ["cw"]

/-- What stands before the number of a helper in its name. -/
def helperMarks : List String := ["cw$F", "cw$M", "cw$Call"]

/-- A text that is gone through: what is done with, and the digits read last, both in reverse. -/
structure Progress where
  done : List Char := []
  digits : List Char := []

namespace Progress

/-- Done with the digits, which are changed if they stand behind one of the marks. -/
def settle (marks : List String) (change : String → String) (p : Progress) : List Char :=
  if !p.digits.isEmpty && marks.any (fun m => m.toList.reverse.isPrefixOf p.done) then
    (change (String.ofList p.digits.reverse)).toList.reverse ++ p.done
  else p.digits ++ p.done

/-- Goes on by a character. -/
def step (marks : List String) (change : String → String) (p : Progress) (c : Char) : Progress :=
  if c.isDigit then { p with digits := c :: p.digits }
  else { done := c :: p.settle marks change }

end Progress

/-- The text with each number behind one of the marks changed. -/
def renumber (marks : List String) (change : String → String) (text : String) : String :=
  let p := text.toList.foldl (Progress.step marks change) {}
  String.ofList (p.settle marks change).reverse

/-- The number that a script sees for a made one; other numbers stay. -/
def shownNumber (digits : String) : String :=
  match digits.toNat? with
  | some n => if start ≤ n ∧ n < 2 * start then toString (n - start + 1) else digits
  | none => digits

/-- The made number that a script means by one that it spells. -/
def meantNumber (digits : String) : String :=
  match digits.toNat? with
  | some n =>
    if 0 < n ∧ n ≤ start ∧ toString n = digits then toString (start + (n - 1)) else digits
  | none => digits

/-- A text as a script sees it. -/
def shown (text : String) : String := renumber (tokenMarks ++ helperMarks) shownNumber text

/-- The token that a script means. -/
def meantToken (token : String) : String := renumber tokenMarks meantNumber token

/-- The name of a class that a script means. -/
def meantName (name : String) : String := renumber helperMarks meantNumber name

/-- A constant as a script sees it. -/
def shownConstant : Constant → Constant
  | .utf8 text => .utf8 (shown text)
  | c => c

/-- An image as a script sees it: the texts among its constants are shown, if that changes any. -/
def shownImage (image : Bytes) : Bytes :=
  let parts := Reader.parse (do return (← Reader.bytes 8, ← Pool.read, (← get).rest)) image
  match parts with
  | .error _ => image
  | .ok (head, pool, rest) =>
    let entries := pool.entries.map shownConstant
    if entries == pool.entries then image
    else
      match Pool.write { pool with entries } with
      | .ok bytes => head ++ bytes ++ rest
      | .error _ => image

/-- A document as a script sees it. -/
def shownDoc (d : Doc) : Doc := d.map shown shownImage

end Weft.Script.Numbering
