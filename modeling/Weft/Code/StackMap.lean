import Weft.Bytes.Reader

/-!
# Stack maps

A stack map is a list of frames, each with the offset of the instruction that it describes. In an
image a frame has its distance from the frame before it instead. `shift` moves the frames, and the
offsets within them, that stand at or behind a place in the code into which bytes are inserted.
Offsets are words of 64 bits, in which sums and differences wrap around.
-/

namespace Weft

/-- The type of a local slot or of a stack item. -/
inductive VerificationType where
  | basic (tag : UInt8)
  | object (index : UInt16)
  | uninitialized (offset : UInt16)
  deriving DecidableEq, Inhabited

namespace VerificationType

/-- Reads a type; the offset of the instruction that it names is moved by `move`. -/
def read (move : Nat → Nat) : Reader VerificationType := do
  let tag ← Reader.u8
  if tag ≤ 6 then return basic tag
  else if tag = 7 then return object (← Reader.u16)
  else if tag = 8 then
    let offset := move (← Reader.u16).toNat
    if offset < 65536 then return uninitialized (UInt16.ofNat offset)
    else throw (.notSupported (.uninitializedOffset offset))
  else throw (.malformed (.verificationType tag))

/-- The bytes of a type. -/
def write : VerificationType → Bytes
  | basic tag => [tag]
  | object index => 7 :: Bytes.ofU16 index
  | uninitialized offset => 8 :: Bytes.ofU16 offset

end VerificationType

/-- How a frame differs from the frame before it. -/
inductive FrameShape where
  | same
  | oneStack (item : VerificationType)
  | chop (count : UInt8)
  | append (locals : List VerificationType)
  | full (locals stack : List VerificationType)
  deriving DecidableEq, Inhabited

/-- The types at an offset of the code. -/
structure Frame where
  offset : Nat
  shape : FrameShape
  deriving DecidableEq, Inhabited

namespace Frame

/-- The offset at a distance from the frame before, of which the offset is given if there is one. -/
def offsetAt (previous : Option Nat) (delta : Nat) : Nat :=
  match previous with
  | none => delta
  | some offset => offset + delta + 1

/-- The distance from the frame before. -/
def deltaFrom (previous : Option Nat) (offset : Nat) : Nat :=
  match previous with
  | none => offset
  | some prior => (UInt64.ofNat offset - UInt64.ofNat prior - 1).toNat

/-- Reads the distance and the shape of a frame. -/
def readShape (move : Nat → Nat) : Reader (Nat × FrameShape) := do
  let type := VerificationType.read move
  let delta : Reader Nat := return (← Reader.u16).toNat
  let tag ← Reader.u8
  if tag < 64 then return (tag.toNat, .same)
  else if tag < 128 then return (tag.toNat - 64, .oneStack (← type))
  else if tag < 247 then throw (.malformed (.frameType tag))
  else
    let delta ← delta
    if tag = 247 then return (delta, .oneStack (← type))
    else if tag < 251 then return (delta, .chop (251 - tag))
    else if tag = 251 then return (delta, .same)
    else if tag < 255 then return (delta, .append (← Reader.times (tag - 251).toNat type))
    else return (delta, .full (← Reader.table type) (← Reader.table type))

/-- The tag and the distance of a frame that has a short form for distances below 64. -/
def shortBytes (short long : UInt8) (delta : UInt16) : Bytes :=
  if delta < 64 then [short + delta.toUInt8] else long :: Bytes.ofU16 delta

/-- The bytes of a frame at that distance. -/
def shapeBytes (delta : UInt16) : FrameShape → Bytes
  | .same => shortBytes 0 251 delta
  | .oneStack item => shortBytes 64 247 delta ++ item.write
  | .chop count => (251 - count) :: Bytes.ofU16 delta
  | .append locals =>
    (251 + UInt8.ofNat locals.length) :: (Bytes.ofU16 delta ++ locals.flatMap (·.write))
  | .full locals stack =>
    255 :: (Bytes.ofU16 delta ++ (types locals ++ types stack))
where
  /-- The bytes of types behind their number. -/
  types (ts : List VerificationType) : Bytes :=
    Bytes.ofU16 (UInt16.ofNat ts.length) ++ ts.flatMap (·.write)

end Frame

namespace StackMap

/-- Reads that many frames behind one at `previous`, and moves the offsets in them. -/
def readFrames (move : Nat → Nat) : Nat → Option Nat → List Frame → Reader (List Frame)
  | 0, _, acc => return acc.reverse
  | n + 1, previous, acc => do
    let (delta, shape) ← Frame.readShape move
    let offset := Frame.offsetAt previous delta
    readFrames move n (some offset) (⟨move offset, shape⟩ :: acc)

/-- Reads a stack map, and moves the offsets in it. -/
def read (move : Nat → Nat) : Reader (List Frame) := do
  let frames ← readFrames move (← Reader.u16).toNat none []
  if ← Reader.hasMore then throw (.malformed .frameTail)
  return frames

/-- The bytes of frames behind one at `previous`. -/
def frameBytes : Option Nat → List Frame → List Bytes → Except Error (List Bytes)
  | _, [], acc => .ok acc.reverse
  | previous, f :: rest, acc =>
    let delta := Frame.deltaFrom previous f.offset
    if delta < 65536 then
      frameBytes (some f.offset) rest (Frame.shapeBytes (UInt16.ofNat delta) f.shape :: acc)
    else .error (.notSupported (.frameDelta delta))

/-- The bytes of a stack map. -/
def write (frames : List Frame) : Except Error Bytes := do
  let parts ← frameBytes none frames []
  return Bytes.ofU16 (UInt16.ofNat frames.length) ++ parts.flatten

/-- Where an offset stands behind an insertion of `amount` bytes at `place`. -/
def moved (place amount offset : Nat) : Nat :=
  if place ≤ offset then (UInt64.ofNat offset + UInt64.ofNat amount).toNat else offset

/-- The stack map of code into which `amount` bytes are inserted at `place`. -/
def shift (place amount : Nat) (data : Bytes) : Except Error Bytes := do
  write (← (read (moved place amount)).parse data)

end StackMap

end Weft
