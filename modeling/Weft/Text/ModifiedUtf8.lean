import Weft.Error
import Weft.Text.Utf8
import Weft.Text.Utf16

/-!
# Modified UTF-8

The encoding of text constants: each UTF-16 unit takes one to three bytes, and the unit zero takes
two, so that no byte is zero. Texts in which that is plain UTF-8 are encoded as such. Decoding takes
well-formed UTF-8 without zero bytes as it stands and reads anything else unit by unit.
-/

namespace Weft.Text

/-- The bytes of a unit. -/
def encodeUnit (u : UInt16) : Bytes :=
  if 0x0001 ≤ u && u ≤ 0x007F then [u.toUInt8]
  else if u ≤ 0x07FF then
    [(0xC0 : UInt8) ||| (u >>> 6).toUInt8 &&& 0x1F, (0x80 : UInt8) ||| u.toUInt8 &&& 0x3F]
  else
    [(0xE0 : UInt8) ||| (u >>> 12).toUInt8 &&& 0x0F, (0x80 : UInt8) ||| (u >>> 6).toUInt8 &&& 0x3F,
      (0x80 : UInt8) ||| u.toUInt8 &&& 0x3F]

/-- The modified UTF-8 of a text, written unit by unit. -/
def encodeByUnits (text : String) : Bytes :=
  (text.toList.flatMap unitsOfChar).flatMap encodeUnit

/-- The character has the same bytes in UTF-8 and in modified UTF-8. -/
def isUniform (c : Char) : Bool := c != '\x00' && c.toNat < 0x10000

/-- The modified UTF-8 of a text. -/
def encodeModified (text : String) : Bytes :=
  if text.toList.all isUniform then text.toList.flatMap String.utf8EncodeChar
  else encodeByUnits text

/-- The units of modified UTF-8, by the form of their lead bytes alone. -/
def decodeUnits (bytes : Bytes) : Except Malformed (List UInt16) :=
  go bytes 0 []
where
  /-- Decodes from offset `i` on, in front of the units of `acc`, which is in reverse. -/
  go : Bytes → Nat → List UInt16 → Except Malformed (List UInt16)
    | [], _, acc => .ok acc.reverse
    | a :: rest, i, acc =>
      if a < 0x80 then go rest (i + 1) (a.toUInt16 :: acc)
      else if a &&& 0xE0 == 0xC0 then
        match rest with
        | [] => .error (.truncatedText i)
        | b :: rest =>
          go rest (i + 2) (((a.toUInt16 &&& 0x1F) <<< 6 ||| b.toUInt16 &&& 0x3F) :: acc)
      else if a &&& 0xF0 == 0xE0 then
        match rest with
        | b :: c :: rest =>
          go rest (i + 3)
            (((a.toUInt16 &&& 0x0F) <<< 12 ||| (b.toUInt16 &&& 0x3F) <<< 6 |||
              c.toUInt16 &&& 0x3F) :: acc)
        | _ => .error (.truncatedText i)
      else .error (.textLead a)

/-- The text of modified UTF-8, read unit by unit. -/
def decodeByUnits (bytes : Bytes) : Except Malformed String := do
  match charsOfUnits? (← decodeUnits bytes) with
  | some cs => return String.ofList cs
  | none => throw .loneSurrogate

/-- The text of modified UTF-8. -/
def decodeModified (bytes : Bytes) : Except Malformed String :=
  match decodeUtf8? bytes with
  | some cs => if bytes.contains 0 then decodeByUnits bytes else .ok (String.ofList cs)
  | none => decodeByUnits bytes

end Weft.Text
