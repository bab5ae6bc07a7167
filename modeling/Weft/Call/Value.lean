import Weft.Number.Shortest
import Weft.Signature.JType
import Weft.Text.Quoted

/-!
# Run-time values

The values that callbacks see, what a callback raises, and the outcome of a call. Floating point
values are kept as bits and compare bit for bit; objects compare by identity.
-/

namespace Weft

open Weft.Text

/-- The identity of an object. -/
structure ObjectId where
  number : Int64
  deriving DecidableEq, Repr, Inhabited

/-- A value of a method, a field or a variable at run time. -/
inductive Value where
  | void
  | null
  | bool (value : Bool)
  | char (unit : UInt16)
  | byte (value : Int8)
  | short (value : Int16)
  | int (value : Int32)
  | long (value : Int64)
  | float (bits : UInt32)
  | double (bits : UInt64)
  | str (text : String)
  | ref (object : ObjectId)
  | array (items : List Value)

namespace Value

instance : Inhabited Value := ⟨void⟩

mutual

/-- The two values are the same. -/
def beq : Value → Value → Bool
  | void, void => true
  | null, null => true
  | bool a, bool b => a == b
  | char a, char b => a == b
  | byte a, byte b => a == b
  | short a, short b => a == b
  | int a, int b => a == b
  | long a, long b => a == b
  | float a, float b => a == b
  | double a, double b => a == b
  | str a, str b => a == b
  | ref a, ref b => a == b
  | array as, array bs => beqList as bs
  | _, _ => false

/-- The two lists hold the same values. -/
def beqList : List Value → List Value → Bool
  | [], [] => true
  | a :: as, b :: bs => a.beq b && beqList as bs
  | _, _ => false

end

instance : BEq Value := ⟨beq⟩

/-- The value of a field that nothing has been stored in. -/
def ofType : JType → Value
  | .void => void
  | .primitive .boolean => bool false
  | .primitive .char => char 0
  | .primitive .byte => byte 0
  | .primitive .short => short 0
  | .primitive .int => int 0
  | .primitive .long => long 0
  | .primitive .float => float 0
  | .primitive .double => double 0
  | .reference _ | .array .. => null

/-- The value is the null reference. -/
def isNull : Value → Bool
  | null => true
  | _ => false

/-- The value as an `int`, of a type that widens to it. -/
def toInt? : Value → Option Int32
  | int v => some v
  | byte v => some v.toInt32
  | short v => some v.toInt32
  | char v => some v.toUInt32.toInt32
  | _ => none

/-- The value as a `long`, of an integral type. -/
def toLong? : Value → Option Int64
  | long v => some v
  | v => v.toInt?.map Int32.toInt64

/-- The bits of the value as a `double`, of a floating point type. -/
def toDouble? : Value → Option UInt64
  | double bits => some bits
  | float bits => some (UInt64.ofNat (Number.widen bits.toNat))
  | _ => none

/-- The value as a `boolean`. -/
def toBool? : Value → Option Bool
  | bool v => some v
  | _ => none

/-- The value as text. -/
def toText? : Value → Option String
  | str text => some text
  | _ => none

/-- The object that the value refers to. -/
def toObject? : Value → Option ObjectId
  | ref object => some object
  | _ => none

/-- A variable of the type can hold the value. -/
def fits : Value → JType → Bool
  | void, .void => true
  | null, t | str _, t | ref _, t | array _, t => t.isReference
  | bool _, .primitive .boolean => true
  | char _, .primitive .char => true
  | byte _, .primitive .byte => true
  | short _, .primitive .short => true
  | int _, .primitive .int => true
  | long _, .primitive .long => true
  | float _, .primitive .float => true
  | double _, .primitive .double => true
  | _, _ => false

mutual

/-- The value as logs show it. -/
def text : Value → String
  | void => "void"
  | null => "null"
  | bool v => toString v
  | char unit => "'\\u" ++ hexPadded 4 unit.toNat ++ "'"
  | byte v => s!"{v}b"
  | short v => s!"{v}s"
  | int v => toString v
  | long v => s!"{v}L"
  | float bits => Number.positional .single bits.toNat ++ "f"
  | double bits => Number.positional .double bits.toNat ++ "d"
  | str s => quote s
  | ref _ => "<object>"
  | array items => bracketed (texts items)

/-- The values of a list as logs show them. -/
def texts : List Value → List String
  | [] => []
  | v :: vs => v.text :: texts vs

end

end Value

/-- What a callback raises: the class of the exception and its message. -/
structure Thrown where
  exception : ClassName
  message : String
  deriving DecidableEq, Inhabited

namespace Thrown

/-- A `RuntimeException` with that message. -/
def runtime (message : String) : Thrown := ⟨⟨"java/lang/RuntimeException"⟩, message⟩

instance : ToString Thrown := ⟨fun t => t.exception.binary ++ ": " ++ t.message⟩

end Thrown

/-- How a call ends. -/
inductive Outcome where
  | returned (value : Value)
  | raised (thrown : Thrown)
  deriving Inhabited

namespace Outcome

/-- The two outcomes are the same. -/
def beq : Outcome → Outcome → Bool
  | returned a, returned b => a == b
  | raised a, raised b => a == b
  | _, _ => false

instance : BEq Outcome := ⟨beq⟩

/-- The value that the call returned. -/
def value? : Outcome → Option Value
  | returned v => some v
  | raised _ => none

/-- What the call raised. -/
def thrown? : Outcome → Option Thrown
  | returned _ => none
  | raised t => some t

/-- The outcome as logs show it. -/
def text : Outcome → String
  | returned v => applied "Returned" [v.text]
  | raised t =>
    applied "Raised" [labelled "Thrown"
      [("class", applied "ClassName" [quote t.exception.internal]), ("message", quote t.message)]]

end Outcome

end Weft
