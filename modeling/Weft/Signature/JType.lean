import Weft.Signature.ClassName

/-!
# The types that descriptors name

`JType` covers every type a descriptor can spell, `void` included. An array keeps its dimensions
as one number beside the element type, so nested brackets are never a nested type.
-/

namespace Weft

/-- A primitive type. -/
inductive Primitive where
  | boolean | char | byte | short | int | long | float | double
  deriving DecidableEq, Hashable, Repr, Inhabited

namespace Primitive

/-- The character that stands for the type in descriptors. -/
def code : Primitive → Char
  | boolean => 'Z'
  | char => 'C'
  | byte => 'B'
  | short => 'S'
  | int => 'I'
  | long => 'J'
  | float => 'F'
  | double => 'D'

/-- The word that stands for the type in source text. -/
def keyword : Primitive → String
  | boolean => "boolean"
  | char => "char"
  | byte => "byte"
  | short => "short"
  | int => "int"
  | long => "long"
  | float => "float"
  | double => "double"

/-- Every primitive type. -/
def all : List Primitive :=
  [boolean, char, byte, short, int, long, float, double]

/-- The type of a descriptor character. -/
def ofCode? (c : Char) : Option Primitive :=
  all.find? (·.code = c)

/-- The type of a source word. -/
def ofKeyword? (word : String) : Option Primitive :=
  all.find? (·.keyword = word)

/-- The class whose objects hold a value of the type. -/
def boxed : Primitive → ClassName
  | boolean => ⟨"java/lang/Boolean"⟩
  | char => ⟨"java/lang/Character"⟩
  | byte => ⟨"java/lang/Byte"⟩
  | short => ⟨"java/lang/Short"⟩
  | int => ⟨"java/lang/Integer"⟩
  | long => ⟨"java/lang/Long"⟩
  | float => ⟨"java/lang/Float"⟩
  | double => ⟨"java/lang/Double"⟩

/-- The method that takes the value out of its box. -/
def unboxMethod (p : Primitive) : String :=
  p.keyword ++ "Value"

/-- The local slots a value takes. -/
def slots : Primitive → UInt16
  | long | double => 2
  | _ => 1

theorem ofCode?_code (p : Primitive) : ofCode? p.code = some p := by
  cases p <;> rfl

theorem ofKeyword?_keyword (p : Primitive) : ofKeyword? p.keyword = some p := by
  cases p <;> decide

end Primitive

/-- A type named by a descriptor. -/
inductive JType where
  | void
  | primitive (p : Primitive)
  | reference (name : ClassName)
  | array (dimensions : UInt8) (element : JType)
  deriving DecidableEq, Hashable, Repr, Inhabited

namespace JType

/-- `java.lang.Object`. -/
def object : JType := reference .object

/-- The class type of that name. -/
def ofClass (text : String) : JType := reference (.ofText text)

/-- `java.lang.String`. -/
def string : JType := reference ⟨"java/lang/String"⟩

/-- A sum of dimensions, held at the largest count. -/
def addDimensions (a b : UInt8) : UInt8 :=
  UInt8.ofNat (min (a.toNat + b.toNat) 255)

/-- The array of `n` more dimensions over the type. -/
def arrayOf (n : UInt8) : JType → JType
  | array m element => array (addDimensions m n) element
  | element => array n element

/-- A text repeated. -/
def repeated (n : Nat) (text : String) : String :=
  String.join (List.replicate n text)

/-- The descriptor of the type. -/
def descriptor : JType → String
  | void => "V"
  | primitive p => p.code.toString
  | reference name => name.descriptor
  | array n element => repeated n.toNat "[" ++ element.descriptor

/-- The type as source text writes it. -/
def sourceName : JType → String
  | void => "void"
  | primitive p => p.keyword
  | reference name => name.binary
  | array n element => element.sourceName ++ repeated n.toNat "[]"

instance : ToString JType := ⟨sourceName⟩

/-- The name a class constant gives the type; only references have one. -/
def classOperand? : JType → Option String
  | reference name => some name.internal
  | t@(array ..) => some t.descriptor
  | _ => none

/-- The descriptor character of `void` and of the primitive types. -/
def code? : JType → Option Char
  | void => some 'V'
  | primitive p => some p.code
  | _ => none

/-- The source word of `void` and of the primitive types. -/
def keyword? : JType → Option String
  | void => some "void"
  | primitive p => some p.keyword
  | _ => none

/-- The type `void` or a primitive type, by its descriptor character. -/
def ofCode? (c : Char) : Option JType :=
  if c = 'V' then some void else (Primitive.ofCode? c).map primitive

/-- The type `void` or a primitive type, by its source word. -/
def ofKeyword? (word : String) : Option JType :=
  if word = "void" then some void else (Primitive.ofKeyword? word).map primitive

/-- The type is `void`. -/
def isVoid : JType → Bool
  | void => true
  | _ => false

/-- The type is primitive, `void` apart. -/
def isPrimitive : JType → Bool
  | primitive _ => true
  | _ => false

/-- Values of the type are references. -/
def isReference : JType → Bool
  | reference _ | array .. => true
  | _ => false

/-- The local slots a value takes. -/
def slots : JType → UInt16
  | void => 0
  | primitive p => p.slots
  | _ => 1

/-- The class whose objects hold a value of the type. -/
def boxed? : JType → Option ClassName
  | primitive p => some p.boxed
  | _ => none

/-- The method that takes a value out of its box. -/
def unboxMethod? : JType → Option String
  | primitive p => some p.unboxMethod
  | _ => none

end JType

/-- The parameter types and the return type of a method. -/
structure MethodDescriptor where
  params : List JType
  ret : JType
  deriving DecidableEq, Hashable, Repr, Inhabited

namespace MethodDescriptor

/-- The descriptor text of the method. -/
def descriptor (d : MethodDescriptor) : String :=
  "(" ++ String.join (d.params.map JType.descriptor) ++ ")" ++ d.ret.descriptor

instance : ToString MethodDescriptor := ⟨descriptor⟩

/-- The local slots of the parameters, counted in sixteen bits. -/
def paramSlots (d : MethodDescriptor) : UInt16 :=
  d.params.foldl (fun n t => n + t.slots) 0

end MethodDescriptor

end Weft
