import Weft.ClassFile.Options

/-!
# Configuration of an injector

What an injector offers to its visitors, emits and verifies, with four presets.
-/

namespace Weft

/-- The choices of an injector. -/
structure Config where
  /-- Synthetic members are not shown to visitors. -/
  skipSynthetic : Bool := true
  /-- Helper classes join the nest of their owner. -/
  nestAttributes : Bool := true
  /-- Woven images carry the name of their injector. -/
  stamp : Bool := true
  /-- Emitted images are decoded again. -/
  verify : Bool := false
  /-- How deep annotations may nest. -/
  annotationDepth : Nat := 32
  /-- Batches may be spread over workers. -/
  parallelBatch : Bool := true
  deriving DecidableEq, Repr, Inhabited

namespace Config

/-- Woven images carry nothing beyond the injections. -/
def minimal : Config :=
  { nestAttributes := false, stamp := false, parallelBatch := false }

/-- The default choices. -/
def production : Config := {}

/-- Everything is shown to visitors and every emitted image is verified. -/
def strict : Config :=
  { skipSynthetic := false, verify := true }

/-- How images are decoded under the configuration. -/
def decodeOptions (c : Config) : DecodeOptions :=
  ⟨c.annotationDepth⟩

end Config

end Weft
