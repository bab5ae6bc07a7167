import Weft.Doc.Basic
import Weft.Digest.Sha1
import Weft.Text.Hex

/-!
# Describing values

A value is described by a document: small integers as numbers, those of 64 bits as decimal text,
what is absent as null, and long runs of bytes by their length and digest.
-/

namespace Weft

/-- A type whose values have a description. -/
class Describe (α : Type) where
  /-- The description of a value. -/
  doc : α → Doc

export Describe (doc)

instance : Describe Doc := ⟨id⟩

instance : Describe Bool := ⟨.bool⟩

instance : Describe String := ⟨.text⟩

instance : Describe Nat := ⟨fun n => .num n⟩

instance : Describe Int := ⟨.num⟩

instance : Describe UInt8 := ⟨fun n => .num n.toNat⟩

instance : Describe UInt16 := ⟨fun n => .num n.toNat⟩

instance : Describe UInt32 := ⟨fun n => .num n.toNat⟩

instance : Describe UInt64 := ⟨fun n => .text (toString n)⟩

instance : Describe Int8 := ⟨fun n => .num n.toInt⟩

instance : Describe Int16 := ⟨fun n => .num n.toInt⟩

instance : Describe Int32 := ⟨fun n => .num n.toInt⟩

instance : Describe Int64 := ⟨fun n => .text (toString n)⟩

instance {α : Type} [Describe α] : Describe (List α) := ⟨fun items => .list (items.map doc)⟩

instance {α : Type} [Describe α] : Describe (Option α) where
  doc
    | some a => doc a
    | none => .null

instance {α β : Type} [Describe α] [Describe β] : Describe (α × β) :=
  ⟨fun p => .list [doc p.1, doc p.2]⟩

namespace Doc

/-- The bits of a number as hexadecimal text of eight digits. -/
def bits32 (bits : UInt32) : Doc := text (Text.hexPadded 8 bits.toNat)

/-- The bits of a number as hexadecimal text of sixteen digits. -/
def bits64 (bits : UInt64) : Doc := text (Text.hexPadded 16 bits.toNat)

/-- Bytes as hexadecimal text, or the length and the digest of more than 8192 of them. -/
def ofBytes (bytes : List UInt8) : Doc :=
  if bytes.length ≤ 8192 then text (Text.hexOfBytes bytes)
  else record [("len", doc bytes.length), ("sha1", text (Digest.sha1 bytes).hex)]

end Doc

end Weft
