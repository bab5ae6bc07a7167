import Weft.Code.Builder
import Weft.Describe.Code
import Weft.Script.Code
import Weft.Script.Value
import Weft.Signature.TypeName

/-!
# Steps of building in scripts

A step of building a body is written as its name and its arguments. It answers with the label or the
slot that it makes, or with the word that it is done. A type or a descriptor that cannot be read
fails the step before it changes anything.
-/

namespace Weft

namespace Build

/-- A step that makes nothing. -/
def done (step : Build Unit) : Reading (Build Doc) := .ok do
  step
  return doc "done"

/-- A step on a type. -/
def onType (name : Doc) (step : JType → Build Unit) : Reading (Build Doc) := do
  let name ← read name
  done do step (← JType.ofName name)

/-- A step on a method's descriptor. -/
def onDescriptor (text : Doc) (step : MethodDescriptor → Build Unit) : Reading (Build Doc) := do
  let text ← read text
  done do step (← MethodDescriptor.ofText text)

/-- A step on a field. -/
def onField (step : ClassName → String → JType → Build Unit) : List Doc → Reading (Build Doc)
  | [owner, name, type] => do
    let owner ← read owner
    let name ← read name
    onType type (step (.ofText owner) name)
  | _ => .error "field"

/-- A step on a method. -/
def onMethod (step : ClassName → String → MethodDescriptor → Build Unit) :
    List Doc → Reading (Build Doc)
  | [owner, name, descriptor] => do
    let owner ← read owner
    let name ← read name
    onDescriptor descriptor (step (.ofText owner) name)
  | _ => .error "method"

/-- The step of that name with those arguments. -/
def ofStep : String → List Doc → Reading (Build Doc)
  | "nop", _ => done (op .nop 0 0)
  | "null", _ => done pushNull
  | "int", [v] => do done (pushInt (← read v))
  | "literal", [v] => do done (pushLiteral (← read v))
  | "string", [s] => do done (pushString (← read s))
  | "load", [t, slot] => do
    let slot ← read slot
    onType t (load · slot)
  | "store", [t, slot] => do
    let slot ← read slot
    onType t (store · slot)
  | "this", _ => done loadThis
  | "dup", _ => done dup
  | "dup_value", [t] => onType t dupValue
  | "pop", [t] => onType t popValue
  | "swap", _ => done swap
  | "new", [name] => do done (newObject (.ofText (← read name)))
  | "checkcast", [t] => onType t checkcast
  | "new_array", [t] => onType t newArray
  | "array_store", _ => done arrayStore
  | "array_load", _ => done arrayLoad
  | "get_field", member => onField getField member
  | "put_field", member => onField putField member
  | "get_static", member => onField getStatic member
  | "put_static", member => onField putStatic member
  | "virtual", method => onMethod invokeVirtual method
  | "special", method => onMethod invokeSpecial method
  | "static", method => onMethod invokeStatic method
  | "static_interface", method => onMethod invokeStaticInterface method
  | "interface", method => onMethod invokeInterface method
  | "box", [t] => onType t box
  | "unbox", [t] => onType t unbox
  | "return", [t] => onType t returnValue
  | "throw", _ => done throwTop
  | "goto", [l] => do done (goto (← read l))
  | "if_zero", [l] => do done (ifZero (← read l))
  | "if_non_zero", [l] => do done (ifNonZero (← read l))
  | "load_args", [d, slot] => do
    let slot ← read slot
    onDescriptor d (loadArguments · slot)
  | "pack", [d, slot] => do
    let slot ← read slot
    onDescriptor d (packArguments · slot)
  | "unpack", [d, slot] => do
    let slot ← read slot
    onDescriptor d (unpackArguments · slot)
  | "place", [l] => do done (place (← read l))
  | "handler", [start, stop, target, caught] => do
    let caught ← match caught with
      | .null => pure none
      | d => some <$> read d
    done (handler (← read start) (← read stop) (← read target) (caught.map ClassName.ofText))
  | "op", [opcode, pops, pushes] => do done (op (← read opcode) (← read pops) (← read pushes))
  | "label", _ => .ok (doc <$> newLabel)
  | "local", [t] => do
    let name ← read t
    return do return doc (← allocateLocal (← JType.ofName name))
  | "pool_size", _ => .ok (return doc (← get).pool.size)
  | name, _ => .error name

/-- The step that a document stands for. -/
def ofDoc : Doc → Reading (Build Doc)
  | .list (.text name :: arguments) => ofStep name arguments
  | _ => .error "step"

end Build

end Weft
