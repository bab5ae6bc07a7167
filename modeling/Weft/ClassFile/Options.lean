/-!
# Options of image decoding
-/

namespace Weft

/-- How an image is decoded. -/
structure DecodeOptions where
  /-- How deep annotations may nest. -/
  annotationDepth : Nat := 32
  deriving DecidableEq, Repr, Inhabited

end Weft
