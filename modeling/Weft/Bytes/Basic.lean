/-!
# Byte sequences

Images and parts of them are sequences of bytes; numbers are written most significant byte first.
-/

namespace Weft

/-- A sequence of bytes. -/
abbrev Bytes := List UInt8

namespace Bytes

/-- The bytes of a number of sixteen bits. -/
def ofU16 (n : UInt16) : Bytes :=
  [(n >>> 8).toUInt8, n.toUInt8]

/-- The bytes of a number of thirty-two bits. -/
def ofU32 (n : UInt32) : Bytes :=
  [(n >>> 24).toUInt8, (n >>> 16).toUInt8, (n >>> 8).toUInt8, n.toUInt8]

/-- The bytes of a number of sixty-four bits. -/
def ofU64 (n : UInt64) : Bytes :=
  ofU32 (n >>> 32).toUInt32 ++ ofU32 n.toUInt32

/-- The number of sixteen bits in two bytes. -/
def toU16 (a b : UInt8) : UInt16 :=
  a.toUInt16 <<< 8 ||| b.toUInt16

/-- The number of thirty-two bits in four bytes. -/
def toU32 (a b c d : UInt8) : UInt32 :=
  (toU16 a b).toUInt32 <<< 16 ||| (toU16 c d).toUInt32

/-- The number of sixty-four bits in two halves. -/
def toU64 (high low : UInt32) : UInt64 :=
  high.toUInt64 <<< 32 ||| low.toUInt64

/-- The first `n` bytes and the rest, if there are that many. -/
def splitAt? (n : Nat) (bytes : Bytes) : Option (Bytes × Bytes) :=
  go n bytes []
where
  /-- Moves `n` bytes to the end of those in `taken`, which is in reverse. -/
  go : Nat → Bytes → Bytes → Option (Bytes × Bytes)
    | 0, rest, taken => some (taken.reverse, rest)
    | _ + 1, [], _ => none
    | n + 1, b :: rest, taken => go n rest (b :: taken)

end Bytes

end Weft
