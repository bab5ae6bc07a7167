import Weft.Signature.Descriptor
import Weft.Text.Blank

/-!
# Type names in every spelling

A type may be spelled as a descriptor, as in source text with `[]` suffixes, or by its internal
name; a single descriptor letter is a primitive type. Blanks around the name and before each `[]`
do not matter.
-/

namespace Weft

open Weft.Text

/-- A base name in front of `[]` suffixes, with their number. -/
def stripBrackets (cs : List Char) : List Char × Nat :=
  go cs.reverse 0 cs.length
where
  /-- Takes suffixes off a reversed name; `fuel` bounds their number. -/
  go (reversed : List Char) (n : Nat) : Nat → List Char × Nat
    | 0 => (reversed.reverse, n)
    | fuel + 1 =>
      match reversed with
      | ']' :: '[' :: rest => go (rest.dropWhile isBlank) (n + 1) fuel
      | _ => (reversed.reverse, n)

/-- The type that a name in any spelling stands for. -/
def JType.ofName (text : String) : Except Error JType :=
  let cs := trim text.toList
  let name := String.ofList cs
  if cs.isEmpty then .error (.malformed .emptyTypeName)
  else if cs.head? = some '[' || (cs.head? = some 'L' && cs.getLast? = some ';') then
    JType.ofDescriptor name
  else
    match cs with
    | [c] =>
      match JType.ofCode? c with
      | some type => .ok type
      | none => spelled name cs
    | _ => spelled name cs
where
  /-- The type of a source name with suffixes. -/
  spelled (name : String) (cs : List Char) : Except Error JType :=
    let (base, n) := stripBrackets cs
    if 255 < n then .error (.malformed .tooManyDimensions)
    else if base.isEmpty || base.any fun c => ['[', ']', ';', '<', '>'].contains c then
      .error (.malformed (.typeName name))
    else
      let word := String.ofList base
      let element := (JType.ofKeyword? word).getD (.ofClass word)
      if n = 0 then .ok element
      else if element.isVoid then .error (.malformed (.arrayOfVoid name))
      else .ok (element.arrayOf (UInt8.ofNat n))

end Weft
