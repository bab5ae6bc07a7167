import Weft.Signature.ClassName

/-!
# Handles of defined classes

A handle names one definition of a class: the class, its number in the space and how often it
has been redefined.
-/

namespace Weft

/-- One definition of a class in a class space. -/
structure Handle where
  name : ClassName
  generation : UInt32
  id : UInt64
  deriving DecidableEq, Repr, Inhabited

instance : ToString Handle where
  toString h := h.name.binary ++ "#" ++ toString h.id ++ "@" ++ toString h.generation

end Weft
