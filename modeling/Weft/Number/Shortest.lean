import Weft.Number.Binary

/-!
# Shortest decimal text of binary floating point numbers

A finite binary number `m · 2 ^ q` stands for every real nearer to it than to its neighbours.
`shortest` gives the decimal with the fewest digits among those reals: for each digit count it
tests the two neighbours of the value on that decimal grid, takes the first grid with a hit and,
of two hits, the nearer one, the larger at a tie. Two layouts of the digits follow: one never uses
an exponent, the other does outside `[1e-4, 1e16)` and keeps a fraction in between.
-/

namespace Weft.Number

/-- A power of ten. -/
def tenTo (k : Nat) : Nat := Nat.pow 10 k

/-- The number of decimal digits of a positive number. -/
def digitCount (n : Nat) : Nat :=
  (Nat.toDigits 10 n).length

/-- The exponent `p` with `10 ^ p ≤ m · 2 ^ q < 10 ^ (p + 1)`, for positive `m`. -/
def magnitude (m : Nat) (q : Int) : Int :=
  if 0 ≤ q then digitCount (m * twoTo q.toNat) - 1
  else
    let scale := twoTo (-q).toNat
    if scale ≤ m then digitCount (m / scale) - 1
    else
      let gap := digitCount scale - digitCount m
      if scale ≤ m * tenTo gap then -gap else -(gap + 1)

/-- The order of `c · 10 ^ e` and `x · 2 ^ q`. -/
def compareScaled (c : Nat) (e : Int) (x : Nat) (q : Int) : Ordering :=
  compare (c * tenTo e.toNat * twoTo (-q).toNat) (x * twoTo q.toNat * tenTo (-e).toNat)

/-- Decimal digits and the exponent of the first of them. -/
structure Digits where
  digits : List Char
  exponent : Int
  deriving DecidableEq, Repr

/-- The digits of `c · 10 ^ e` without trailing zeros. -/
def Digits.ofScaled (c : Nat) (e : Int) : Digits :=
  let all := Nat.toDigits 10 c
  ⟨(all.reverse.dropWhile (· = '0')).reverse, e + all.length - 1⟩

/-- The decimal `c · 10 ^ e` rounds to `m · 2 ^ q`. -/
def roundsTo (m : Nat) (q : Int) (edge : Bool) (c : Nat) (e : Int) : Bool :=
  let low := compareScaled c e (4 * m - if edge then 1 else 2) (q - 2)
  let high := compareScaled c e (4 * m + 2) (q - 2)
  (low == .gt && high == .lt) || (m % 2 == 0 && (low == .eq || high == .eq))

/-- The decimal of `count` digits that rounds to `m · 2 ^ q` and is nearest to it. -/
def onGrid (m : Nat) (q : Int) (edge : Bool) (p : Int) (count : Nat) : Option Digits :=
  let e := p + 1 - count
  let c := m * twoTo q.toNat * tenTo (-e).toNat / (tenTo e.toNat * twoTo (-q).toNat)
  let below := roundsTo m q edge c e
  let above := roundsTo m q edge (c + 1) e
  if below && above then
    if compareScaled (2 * c + 1) e (2 * m) q == .gt then some (.ofScaled c e)
    else some (.ofScaled (c + 1) e)
  else if below then some (.ofScaled c e)
  else if above then some (.ofScaled (c + 1) e)
  else none

/-- The shortest decimal that rounds to `m · 2 ^ q`, of at most seventeen digits. -/
def shortest (m : Nat) (q : Int) (edge : Bool) : Digits :=
  let p := magnitude m q
  ((List.range' 1 17).findSome? (onGrid m q edge p)).getD ⟨['0'], 0⟩

/-- The digits without an exponent. -/
def Digits.positional (d : Digits) : List Char :=
  let n := d.digits.length
  if d.exponent < 0 then
    '0' :: '.' :: List.replicate (-d.exponent - 1).toNat '0' ++ d.digits
  else
    let whole := d.exponent.toNat + 1
    if n ≤ whole then d.digits ++ List.replicate (whole - n) '0'
    else d.digits.take whole ++ '.' :: d.digits.drop whole

/-- The digits with one before the point and an exponent. -/
def Digits.scientific (d : Digits) : List Char :=
  let fraction := d.digits.drop 1
  d.digits.take 1 ++ (if fraction.isEmpty then [] else '.' :: fraction) ++
    'e' :: (toString d.exponent).toList

/-- A number as text, its finite magnitude laid out by `layout`; `zero` is the text of zero. -/
def render (f : Format) (bits : Nat) (zero : String) (layout : Digits → List Char) : String :=
  match f.decode bits with
  | .nan => "NaN"
  | .infinite negative => if negative then "-inf" else "inf"
  | .zero negative => if negative then "-" ++ zero else zero
  | .finite negative m q edge =>
    String.ofList ((if negative then ['-'] else []) ++ layout (shortest m q edge))

/-- The number without an exponent and without a fraction that is zero. -/
def positional (f : Format) (bits : Nat) : String :=
  render f bits "0" Digits.positional

/-- The number with a fraction always, and with an exponent below `1e-4` and from `1e16`. -/
def general (f : Format) (bits : Nat) : String :=
  render f bits "0.0" fun d =>
    if d.exponent < -4 || 16 ≤ d.exponent then d.scientific
    else
      let cs := d.positional
      if cs.contains '.' then cs else cs ++ ['.', '0']

end Weft.Number
