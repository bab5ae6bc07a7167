/-!
# Access flags

The sixteen access bits of classes and members, and the kind of class that they describe. Bits
without a meaning of their own are kept as they are.
-/

namespace Weft

/-- A set of access flags. -/
structure Access where
  bits : UInt16
  deriving DecidableEq, Hashable, Repr, Inhabited

namespace Access

/-- The class or member is visible everywhere. -/
def accPublic : Access := ⟨0x0001⟩
/-- The member is visible in its nest only. -/
def accPrivate : Access := ⟨0x0002⟩
/-- The member belongs to the class and not to its instances. -/
def accStatic : Access := ⟨0x0008⟩
/-- The class, member or parameter cannot be changed. -/
def accFinal : Access := ⟨0x0010⟩
/-- The member is visible in its package and in subclasses. -/
def accProtected : Access := ⟨0x0004⟩
/-- The class calls methods of its superclass by the modern rule. -/
def accSuper : Access := ⟨0x0020⟩
/-- The method holds the monitor of its receiver while it runs. -/
def accSynchronized : Access := ⟨0x0020⟩
/-- The method stands in for another that the compiler made. -/
def accBridge : Access := ⟨0x0040⟩
/-- The last parameter of the method takes any number of arguments. -/
def accVarargs : Access := ⟨0x0080⟩
/-- The method has no bytecode but platform code. -/
def accNative : Access := ⟨0x0100⟩
/-- The class is an interface. -/
def accInterface : Access := ⟨0x0200⟩
/-- The class or method leaves its body to others. -/
def accAbstract : Access := ⟨0x0400⟩
/-- The class or member does not appear in source text. -/
def accSynthetic : Access := ⟨0x1000⟩
/-- The class is an annotation type. -/
def accAnnotationType : Access := ⟨0x2000⟩
/-- The class is an enumeration. -/
def accEnum : Access := ⟨0x4000⟩

/-- The flags of either set. -/
def union (a b : Access) : Access := ⟨a.bits ||| b.bits⟩

/-- The flags of both sets. -/
def inter (a b : Access) : Access := ⟨a.bits &&& b.bits⟩

/-- The flags of the first set that the second lacks. -/
def diff (a b : Access) : Access := ⟨a.bits &&& ~~~b.bits⟩

instance : Union Access := ⟨union⟩

instance : Inter Access := ⟨inter⟩

instance : SDiff Access := ⟨diff⟩

/-- Every flag of `b` is set in `a`. -/
def has (a b : Access) : Bool := a.bits &&& b.bits == b.bits

/-- Some flag of `b` is set in `a`. -/
def hasAny (a b : Access) : Bool := a.bits &&& b.bits != 0

/-- Public, private and protected. -/
def visibility : Access := ⟨0x0007⟩

/-- The flags with the visibility of `v` in place of their own. -/
def withVisibility (a v : Access) : Access :=
  (a \ visibility) ∪ (v ∩ visibility)

/-- The member belongs to the class and not to its instances. -/
def isStatic (a : Access) : Bool :=
  a.has accStatic

/-- None of public, private and protected is set. -/
def isPackagePrivate (a : Access) : Bool :=
  !a.hasAny visibility

end Access

/-- What a class is, by its access flags. -/
inductive ClassKind where
  | plain | interface | enumeration | abstractClass | annotationType
  deriving DecidableEq, Repr, Inhabited

namespace ClassKind

/-- The kind of a class with those flags; the rarer flag wins. -/
def ofAccess (a : Access) : ClassKind :=
  if a.has .accAnnotationType then annotationType
  else if a.has .accInterface then interface
  else if a.has .accEnum then enumeration
  else if a.has .accAbstract then abstractClass
  else plain

/-- The kind in words joined by underscores. -/
def word : ClassKind → String
  | plain => "class"
  | interface => "interface"
  | enumeration => "enum"
  | abstractClass => "abstract_class"
  | annotationType => "annotation"

/-- The kind as class descriptions show it. -/
def text : ClassKind → String
  | plain => "Class"
  | interface => "Interface"
  | enumeration => "Enum"
  | abstractClass => "AbstractClass"
  | annotationType => "Annotation"

end ClassKind

end Weft
