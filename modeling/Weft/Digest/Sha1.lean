import Weft.Text.Hex

/-!
# SHA-1

The 160-bit digest of a byte sequence. The message is padded with a one bit, zeros and its bit
length to whole blocks of sixteen words; each block is extended to eighty words and stirred into a
state of five.
-/

namespace Weft.Digest

/-- The five words of a digest, which are also the state between blocks. -/
structure Sha1 where
  a : UInt32
  b : UInt32
  c : UInt32
  d : UInt32
  e : UInt32
  deriving DecidableEq, Hashable, Repr, Inhabited

/-- The word rotated left. -/
def rotl (n : UInt32) (w : UInt32) : UInt32 :=
  w <<< n ||| w >>> (32 - n)

/-- The digest as hexadecimal text. -/
def Sha1.hex (s : Sha1) : String :=
  String.join ([s.a, s.b, s.c, s.d, s.e].map fun w => Text.hexPadded 8 w.toNat)

/-- The state before the first block. -/
def Sha1.start : Sha1 :=
  ⟨0x67452301, 0xEFCDAB89, 0x98BADCFE, 0x10325476, 0xC3D2E1F0⟩

/-- Sixteen words extended to eighty. -/
def schedule (block : Array UInt32) : Array UInt32 :=
  (List.range' 16 64).foldl
    (fun w t =>
      let word k := w.getD (t - k) 0
      w.push (rotl 1 (word 3 ^^^ word 8 ^^^ word 14 ^^^ word 16)))
    block

/-- The mixing function and the constant of round `t`. -/
def mix (t : Nat) (b c d : UInt32) : UInt32 :=
  if t < 20 then (b &&& c ||| ~~~b &&& d) + 0x5A827999
  else if t < 40 then (b ^^^ c ^^^ d) + 0x6ED9EBA1
  else if t < 60 then (b &&& c ||| b &&& d ||| c &&& d) + 0x8F1BBCDC
  else (b ^^^ c ^^^ d) + 0xCA62C1D6

/-- Round `t` on a word of the schedule. -/
def round (s : Sha1) (t : Nat) (w : UInt32) : Sha1 :=
  ⟨rotl 5 s.a + mix t s.b s.c s.d + s.e + w, s.a, rotl 30 s.b, s.c, s.d⟩

/-- Stirs a block into the state. -/
def stir (s : Sha1) (block : Array UInt32) : Sha1 :=
  let w := schedule block
  let r := (List.range 80).foldl (fun r t => round r t (w.getD t 0)) s
  ⟨s.a + r.a, s.b + r.b, s.c + r.c, s.d + r.d, s.e + r.e⟩

/-- The padding behind a message of `n` bytes. -/
def padding (n : Nat) : List UInt8 :=
  let zeros := (119 - n % 64) % 64
  let length := (List.range 8).map fun i => UInt8.ofNat ((8 * n) >>> (8 * (7 - i)))
  0x80 :: (List.replicate zeros 0 ++ length)

/-- The digest under way: the state, the words of the block, and the bytes of the word. -/
structure Progress where
  state : Sha1
  block : Array UInt32
  word : UInt32
  bytes : Nat

/-- Takes in one more byte. -/
def Progress.push (p : Progress) (byte : UInt8) : Progress :=
  let word := p.word <<< 8 ||| byte.toUInt32
  if p.bytes < 3 then { p with word, bytes := p.bytes + 1 }
  else if p.block.size < 15 then ⟨p.state, p.block.push word, 0, 0⟩
  else ⟨stir p.state (p.block.push word), #[], 0, 0⟩

/-- The digest of a message. -/
def sha1 (message : List UInt8) : Sha1 :=
  let start : Progress := ⟨.start, #[], 0, 0⟩
  let read := message.foldl Progress.push start
  ((padding message.length).foldl Progress.push read).state

end Weft.Digest
