/-!
# Hexadecimal text

Numbers and bytes in lower-case hexadecimal: the shortest form, a form padded with zeros to a
least width, and two digits a byte.
-/

namespace Weft.Text

/-- The lower-case digit of a value below sixteen. -/
def hexDigit (n : Nat) : Char :=
  if n < 10 then Char.ofNat (n + 48) else Char.ofNat (n + 87)

/-- The hexadecimal digits of a number, most significant first; none for zero. -/
def hexDigits (n : Nat) : List Char :=
  go n []
where
  /-- Puts the digits of `n` in front of `acc`. -/
  go (n : Nat) (acc : List Char) : List Char :=
    if h : n = 0 then acc else go (n / 16) (hexDigit (n % 16) :: acc)
  termination_by n
  decreasing_by exact Nat.div_lt_self (by omega) (by omega)

/-- A number in hexadecimal, padded with zeros to at least `width` digits. -/
def hexPadded (width n : Nat) : String :=
  let digits := hexDigits n
  String.ofList (List.replicate (width - digits.length) '0' ++ digits)

/-- A number in hexadecimal without leading zeros. -/
def hex (n : Nat) : String :=
  hexPadded 1 n

/-- Two digits for each byte. -/
def hexOfBytes (bytes : List UInt8) : String :=
  String.ofList (bytes.flatMap fun b => [hexDigit (b.toNat / 16), hexDigit (b.toNat % 16)])

end Weft.Text
