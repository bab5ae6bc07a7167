/-!
# Binary floating point numbers as bits

The two interchange formats, what their bits stand for, when two numbers compare equal, and the
widening of the narrow format into the wide one.
-/

namespace Weft.Number

/-- A power of two. -/
def twoTo (k : Nat) : Nat := Nat.pow 2 k

/-- The widths of the fraction and of the exponent of a binary interchange format. -/
structure Format where
  fractionBits : Nat
  exponentBits : Nat
  deriving DecidableEq, Repr

/-- Thirty-two bits. -/
def Format.single : Format := ⟨23, 8⟩

/-- Sixty-four bits. -/
def Format.double : Format := ⟨52, 11⟩

/-- What the bits of a binary number stand for. -/
inductive Decoded where
  | nan
  | infinite (negative : Bool)
  | zero (negative : Bool)
  /-- The number `m · 2 ^ q`; `edge` when the number below it is half as far as the one above. -/
  | finite (negative : Bool) (m : Nat) (q : Int) (edge : Bool)
  deriving DecidableEq, Repr

/-- Takes the bits of a number apart. -/
def Format.decode (f : Format) (bits : Nat) : Decoded :=
  let fraction := bits % twoTo f.fractionBits
  let exponent := bits / twoTo f.fractionBits % twoTo f.exponentBits
  let negative := bits / twoTo (f.fractionBits + f.exponentBits) % 2 = 1
  let bias : Int := Int.ofNat (twoTo (f.exponentBits - 1)) - 1 + f.fractionBits
  if exponent = twoTo f.exponentBits - 1 then
    if fraction = 0 then .infinite negative else .nan
  else if exponent = 0 then
    if fraction = 0 then .zero negative else .finite negative fraction (1 - bias) false
  else
    .finite negative (twoTo f.fractionBits + fraction) (exponent - bias) (fraction == 0)

/-- The two numbers compare equal: no NaN is, and both zeros are. -/
def Format.equal (f : Format) (a b : Nat) : Bool :=
  match f.decode a, f.decode b with
  | .nan, _ | _, .nan => false
  | .zero _, .zero _ => true
  | x, y => x == y

/-- The bits in the wide format of a number of the narrow one; a NaN becomes quiet. -/
def widen (bits : Nat) : Nat :=
  let sign := bits / twoTo 31 % 2 * twoTo 63
  match Format.single.decode bits with
  | .nan => sign + (twoTo 11 - 1) * twoTo 52 + (bits % twoTo 22 + twoTo 22) * twoTo 29
  | .infinite _ => sign + (twoTo 11 - 1) * twoTo 52
  | .zero _ => sign
  | .finite _ m q _ =>
    let shift := 52 - m.log2
    let exponent := q - shift + 1075
    sign + exponent.toNat * twoTo 52 + (m * twoTo shift - twoTo 52)

end Weft.Number
