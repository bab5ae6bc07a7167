import Weft.Bytes.Basic

/-!
# UTF-8

The decoding of well-formed UTF-8: each character in its shortest form, no surrogates, nothing
beyond the last code point. The encoding is that of the standard library.
-/

namespace Weft.Text

/-- The byte continues a character. -/
def isTail (b : UInt8) : Bool := 0x80 ≤ b && b ≤ 0xBF

/-- The low six bits of a byte. -/
def six (b : UInt8) : Nat := b.toNat % 64

/-- Two bytes form a character. -/
def isPair (a b : UInt8) : Bool := 0xC2 ≤ a && a ≤ 0xDF && isTail b

/-- Three bytes form a character. -/
def isTriple (a b c : UInt8) : Bool :=
  0xE0 ≤ a && a ≤ 0xEF && isTail b && isTail c && (a != 0xE0 || 0xA0 ≤ b) && (a != 0xED || b < 0xA0)

/-- Four bytes form a character. -/
def isQuadruple (a b c d : UInt8) : Bool :=
  0xF0 ≤ a && a ≤ 0xF4 && isTail b && isTail c && isTail d && (a != 0xF0 || 0x90 ≤ b) &&
    (a != 0xF4 || b < 0x90)

/-- The characters of well-formed UTF-8. -/
def decodeUtf8? (bytes : Bytes) : Option (List Char) :=
  go bytes []
where
  /-- Decodes in front of the characters of `acc`, which is in reverse. -/
  go : Bytes → List Char → Option (List Char)
    | [], acc => some acc.reverse
    | a :: rest, acc =>
      if a < 0x80 then go rest (Char.ofNat a.toNat :: acc)
      else
        match rest with
        | [] => none
        | b :: rest =>
          if isPair a b then go rest (Char.ofNat (a.toNat % 32 * 64 + six b) :: acc)
          else
            match rest with
            | [] => none
            | c :: rest =>
              if isTriple a b c then
                go rest (Char.ofNat (a.toNat % 16 * 4096 + six b * 64 + six c) :: acc)
              else
                match rest with
                | [] => none
                | d :: rest =>
                  if isQuadruple a b c d then
                    go rest
                      (Char.ofNat (a.toNat % 8 * 262144 + six b * 4096 + six c * 64 + six d) :: acc)
                  else none

end Weft.Text
