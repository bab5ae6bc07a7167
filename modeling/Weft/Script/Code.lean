import Weft.Code.Decode
import Weft.Edit
import Weft.Doc.Read

/-!
# Method bodies in scripts

An item of code is written as a list: a label, an opcode with its operand, or items that are
repeated. A body is given by its items and tables, or by bytes that are decoded.
-/

namespace Weft

instance : Read Label := ⟨fun d => do return ⟨← read d⟩⟩

instance : Read Opcode where
  read d := do
    match Opcode.ofByte? (← read d) with
    | some op => return op
    | none => throw "opcode"

/-- The operand of a kind and its content. -/
def Operand.ofKind : String → List Doc → Reading Operand
  | "byte", [n] => return .byte (← read n)
  | "atype", [n] => return .arrayType (← read n)
  | "short", [n] => return .short (← read n)
  | "local", [n] => return .local (← read n)
  | "const", [n] => return .constant (← read n)
  | "indy", [n] => return .invokeDynamic (← read n)
  | "iinc", [index, delta] => return .increment (← read index) (← read delta)
  | "iface", [index, count] => return .invokeInterface (← read index) (← read count)
  | "multi", [index, dimensions] => return .multiArray (← read index) (← read dimensions)
  | "branch", [l] => return .branch (← read l)
  | "table", [default, low, targets] =>
    return .tableSwitch (← read default) (← read low) (← targets.each Label)
  | "lookup", [default, pairs] =>
    return .lookupSwitch (← read default) (← pairs.each (Int32 × Label))
  | kind, _ => .error kind

mutual

/-- The items that a document stands for. -/
def Item.ofDoc : Doc → Reading (List Item)
  | .list [.text "L", l] => return [.label (← read l)]
  | .list (.text "repeat" :: n :: items) => do
    return (List.replicate (← read n) (← Item.ofDocs items)).flatten
  | .list [byte] => return [.op ⟨← read byte, .none⟩]
  | .list (byte :: .text kind :: content) => do
    return [.op ⟨← read byte, ← Operand.ofKind kind content⟩]
  | _ => .error "item"

/-- The items that documents stand for. -/
def Item.ofDocs : List Doc → Reading (List Item)
  | [] => return []
  | d :: ds => return (← Item.ofDoc d) ++ (← Item.ofDocs ds)

end

instance : Read Handler where
  read
    | .list [start, stop, target, caught] =>
      return ⟨← read start, ← read stop, ← read target, ← read caught⟩
    | _ => .error "handler"

instance : Read LocalRange where
  read
    | .list [start, stop, name, descriptor, index] =>
      return ⟨← read start, ← read stop, ← read name, ← read descriptor, ← read index⟩
    | _ => .error "variable"

instance : Read ExceptionEntry where
  read
    | .list [start, stop, target, caught] =>
      return ⟨← read start, ← read stop, ← read target, ← read caught⟩
    | _ => .error "exception entry"

instance : Read LocalVariable where
  read
    | .list [start, length, name, descriptor, index] =>
      return ⟨← read start, ← read length, ← read name, ← read descriptor, ← read index⟩
    | _ => .error "variable"

/-- The body that a record gives by its items and tables. -/
def Body.ofDoc (d : Doc) : Reading Body := do
  return {
    maxStack := ← d.fieldD "stack" 0
    maxLocals := ← d.field UInt16 "locals"
    code := ← Item.ofDocs (← d.eachOf Doc "insns")
    handlers := ← d.eachOf Handler "handlers"
    lines := ← d.eachOf (Label × UInt16) "lines"
    locals := ← d.eachOf LocalRange "vars"
    labelCount := ← d.fieldD "labels" 0 }

/-- The code that a record gives by its bytes and tables, whose names are added to the pool. -/
def CodeAttribute.ofDoc (code : Bytes) (d : Doc) : Reading (StateM Pool CodeAttribute) := do
  let stack ← d.fieldD "stack" (2 : UInt16)
  let locals ← d.fieldD "locals" (2 : UInt16)
  let exceptions ← d.eachOf ExceptionEntry "exceptions"
  let lines ← d.eachOf (UInt16 × UInt16) "lines"
  let vars ← d.eachOf LocalVariable "vars"
  let raw ← d.eachOf (String × List UInt8) "raw"
  let lineTable := AttributeBody.lineNumberTable (lines.map fun l => ⟨l.1, l.2⟩)
  let tables := (if (d.get? "lines").isSome then [("LineNumberTable", lineTable)] else []) ++
    (if (d.get? "vars").isSome then [("LocalVariableTable", .localVariableTable vars)] else [])
  let attributes := tables ++ raw.map fun r => (r.1, .raw r.2)
  return do
    let attributes ← attributes.mapM fun a => Attribute.named a.1 a.2
    return ⟨stack, locals, code, exceptions, attributes⟩

/-- The body that a record gives, by bytes or by items. -/
def Body.editOfDoc (d : Doc) : Reading (Edit Pool Body) := do
  match ← d.field? (List UInt8) "code" with
  | some code =>
    let given ← CodeAttribute.ofDoc code d
    return do Body.ofCode (← given) (← get)
  | none =>
    let body ← Body.ofDoc d
    return pure body

end Weft
