import Weft.Signature.JType

/-!
# Names of the weaver

The names that woven code uses: the classes it calls at run time, the members that the weaver adds
and the prefixes that keep them apart from the members of the class.
-/

namespace Weft.Weave

/-- The class that woven code calls. -/
def bridgeClass : ClassName := ⟨"classweave/runtime/Bridge"⟩

/-- The interface of helpers that give access to a field. -/
def fieldAccessorClass : ClassName := ⟨"classweave/runtime/FieldAccessor"⟩

/-- The interface of helpers that call a method. -/
def methodAccessorClass : ClassName := ⟨"classweave/runtime/MethodAccessor"⟩

/-- The name under which the body of an intercepted method is kept. -/
def keptName (method : String) : String := method ++ "$cw$original"

/-- The field that holds the token of a computed initializer. -/
def holderName (field : String) : String := "$cw$init$" ++ field

/-- The suffix of a helper class, by its kind and number. -/
def helperSuffix (kind : String) (number : Nat) : String := s!"cw${kind}{number}"

/-- The field of a helper that holds the object it works on. -/
def targetField : String := "target"

/-- The field of a helper that tells whether its field was set. -/
def dirtyField : String := "dirty"

end Weft.Weave
