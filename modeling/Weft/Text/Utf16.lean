/-!
# UTF-16

Characters as sequences of sixteen-bit units: one unit below `0x10000`, a pair of surrogates above.
-/

namespace Weft.Text

/-- The units of a character. -/
def unitsOfChar (c : Char) : List UInt16 :=
  let n := c.toNat
  if n < 0x10000 then [UInt16.ofNat n]
  else
    let m := n - 0x10000
    [UInt16.ofNat (0xD800 + m / 1024), UInt16.ofNat (0xDC00 + m % 1024)]

/-- The unit is the first of a pair. -/
def isHighSurrogate (u : UInt16) : Bool := 0xD800 ≤ u && u ≤ 0xDBFF

/-- The unit is the second of a pair. -/
def isLowSurrogate (u : UInt16) : Bool := 0xDC00 ≤ u && u ≤ 0xDFFF

/-- The characters of a sequence of units in which every surrogate is paired. -/
def charsOfUnits? (units : List UInt16) : Option (List Char) :=
  go units []
where
  /-- Decodes in front of the characters of `acc`, which is in reverse. -/
  go : List UInt16 → List Char → Option (List Char)
    | [], acc => some acc.reverse
    | u :: rest, acc =>
      if isHighSurrogate u then
        match rest with
        | [] => none
        | v :: rest =>
          if isLowSurrogate v then
            let n := 0x10000 + (u.toNat - 0xD800) * 1024 + (v.toNat - 0xDC00)
            go rest (Char.ofNat n :: acc)
          else none
      else if isLowSurrogate u then none
      else go rest (Char.ofNat u.toNat :: acc)

end Weft.Text
