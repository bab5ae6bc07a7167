import Weft.Signature.JType

/-!
# Generic types

The types of generic signatures. A type without generic parts stays a plain `JType`; a variable
carries its bounds; `unknown` marks what a signature leaves undetermined.
-/

namespace Weft

mutual

/-- A type as a generic signature gives it. -/
inductive GenericType where
  | plain (type : JType)
  | parameterized (raw : ClassName) (arguments : List TypeArgument)
  | typeVariable (name : String) (bounds : List GenericType)
  | array (dimensions : UInt8) (component : GenericType)
  | unknown

/-- An argument of a parameterized type: a type or a wildcard with at most one bound. -/
inductive TypeArgument where
  | any
  | upper (bound : GenericType)
  | lower (bound : GenericType)
  | exact (type : GenericType)

end

instance : Inhabited GenericType := ⟨.unknown⟩

/-- The argument is a wildcard. -/
def TypeArgument.isWildcard : TypeArgument → Bool
  | .exact _ => false
  | _ => true

namespace GenericType

/-- The type is more than its erasure. -/
def isGeneric : GenericType → Bool
  | plain _ => false
  | _ => true

/-- The type that remains when generics are erased: of a variable, that of its first bound. -/
def erasure : GenericType → JType
  | plain type => type
  | parameterized raw _ => .reference raw
  | typeVariable _ [] => .object
  | typeVariable _ (bound :: _) => bound.erasure
  | array n component => component.erasure.arrayOf n
  | unknown => .object

end GenericType

mutual

/-- Some part of the type is undetermined. -/
def GenericType.hasUnknown : GenericType → Bool
  | .plain _ => false
  | .parameterized _ arguments => anyArgumentUnknown arguments
  | .typeVariable _ bounds => anyUnknown bounds
  | .array _ component => component.hasUnknown
  | .unknown => true

/-- Some part of the argument is undetermined. -/
def TypeArgument.hasUnknown : TypeArgument → Bool
  | .any => false
  | .upper bound => bound.hasUnknown
  | .lower bound => bound.hasUnknown
  | .exact type => type.hasUnknown

/-- Some type of the list is undetermined in some part. -/
def anyUnknown : List GenericType → Bool
  | [] => false
  | t :: ts => t.hasUnknown || anyUnknown ts

/-- Some argument of the list is undetermined in some part. -/
def anyArgumentUnknown : List TypeArgument → Bool
  | [] => false
  | a :: as => a.hasUnknown || anyArgumentUnknown as

end

mutual

/-- The two types are the same. -/
def GenericType.beq : GenericType → GenericType → Bool
  | .plain s, .plain t => s == t
  | .parameterized r as, .parameterized s bs => r == s && beqArguments as bs
  | .typeVariable m bs, .typeVariable n cs => m == n && beqTypes bs cs
  | .array m s, .array n t => m == n && s.beq t
  | .unknown, .unknown => true
  | _, _ => false

/-- The two arguments are the same. -/
def TypeArgument.beq : TypeArgument → TypeArgument → Bool
  | .any, .any => true
  | .upper s, .upper t => s.beq t
  | .lower s, .lower t => s.beq t
  | .exact s, .exact t => s.beq t
  | _, _ => false

/-- The two lists hold the same types. -/
def beqTypes : List GenericType → List GenericType → Bool
  | [], [] => true
  | s :: ss, t :: ts => s.beq t && beqTypes ss ts
  | _, _ => false

/-- The two lists hold the same arguments. -/
def beqArguments : List TypeArgument → List TypeArgument → Bool
  | [], [] => true
  | a :: as, b :: bs => a.beq b && beqArguments as bs
  | _, _ => false

end

instance : BEq GenericType := ⟨GenericType.beq⟩

instance : BEq TypeArgument := ⟨TypeArgument.beq⟩

/-- A declared type parameter with its bounds. -/
structure TypeParameter where
  name : String
  bounds : List GenericType
  deriving BEq, Inhabited

/-- The generic signature of a class. -/
structure ClassSignature where
  typeParameters : List TypeParameter
  superclass : GenericType
  interfaces : List GenericType
  deriving BEq, Inhabited

/-- The generic signature of a method. -/
structure MethodSignature where
  typeParameters : List TypeParameter
  parameters : List GenericType
  returnType : GenericType
  throws : List GenericType
  deriving BEq, Inhabited

end Weft
