import Weft.Text.Quoted
import Weft.Number.Shortest

/-!
# Constants

The entries of a constant pool and the literals that some of them stand for. Floating point
numbers are kept as bits, so that constants compare bit for bit.
-/

namespace Weft

open Weft.Text

/-- An entry of a constant pool. -/
inductive Constant where
  | unusable
  | utf8 (text : String)
  | integer (value : Int32)
  | float (bits : UInt32)
  | long (value : Int64)
  | double (bits : UInt64)
  | classRef (name : UInt16)
  | string (text : UInt16)
  | fieldRef (owner nameAndType : UInt16)
  | methodRef (owner nameAndType : UInt16)
  | interfaceMethodRef (owner nameAndType : UInt16)
  | nameAndType (name descriptor : UInt16)
  | methodHandle (kind : UInt8) (reference : UInt16)
  | methodType (descriptor : UInt16)
  | dynamic (bootstrap nameAndType : UInt16)
  | invokeDynamic (bootstrap nameAndType : UInt16)
  | module (name : UInt16)
  | package (name : UInt16)
  deriving DecidableEq, Hashable, Inhabited

namespace Constant

/-- The constant takes two slots of the pool. -/
def isWide : Constant → Bool
  | long _ | double _ => true
  | _ => false

/-- The constant as messages show it. -/
def text : Constant → String
  | unusable => "Unusable"
  | utf8 text => applied "Utf8" [quote text]
  | integer value => applied "Integer" [toString value]
  | float bits => applied "Float" [toString bits]
  | long value => applied "Long" [toString value]
  | double bits => applied "Double" [toString bits]
  | classRef name => applied "Class" [toString name]
  | string text => applied "String" [toString text]
  | fieldRef owner nat => member "FieldRef" "class" owner nat
  | methodRef owner nat => member "MethodRef" "class" owner nat
  | interfaceMethodRef owner nat => member "InterfaceMethodRef" "class" owner nat
  | nameAndType name descriptor =>
    labelled "NameAndType" [("name", toString name), ("descriptor", toString descriptor)]
  | methodHandle kind reference =>
    labelled "MethodHandle" [("kind", toString kind), ("reference", toString reference)]
  | methodType descriptor => applied "MethodType" [toString descriptor]
  | dynamic bootstrap nat => member "Dynamic" "bootstrap" bootstrap nat
  | invokeDynamic bootstrap nat => member "InvokeDynamic" "bootstrap" bootstrap nat
  | module name => applied "Module" [toString name]
  | package name => applied "Package" [toString name]
where
  /-- A pair of an index under `label` and a name and type. -/
  member (name label : String) (index nat : UInt16) : String :=
    labelled name [(label, toString index), ("name_and_type", toString nat)]

end Constant

/-- A value that a constant can stand for in code and in fields. -/
inductive Literal where
  | int (value : Int32)
  | long (value : Int64)
  | float (bits : UInt32)
  | double (bits : UInt64)
  | string (text : String)
  deriving DecidableEq, Inhabited

namespace Literal

/-- The literal as messages show it. -/
def text : Literal → String
  | int value => applied "Int" [toString value]
  | long value => applied "Long" [toString value]
  | float bits => applied "Float" [Number.general .single bits.toNat]
  | double bits => applied "Double" [Number.general .double bits.toNat]
  | string text => applied "String" [quote text]

/-- The two literals compare equal; floating point numbers do so as numbers. -/
def same : Literal → Literal → Bool
  | float a, float b => Number.Format.single.equal a.toNat b.toNat
  | double a, double b => Number.Format.double.equal a.toNat b.toNat
  | a, b => a == b

end Literal

end Weft
