import Weft.ClassFile.Attribute
import Weft.Code.Layout
import Weft.Edit

/-!
# Encoding method bodies

Code is laid out and written item by item, each at its offset. Handlers over no code are left out,
and so are lines at the end of the code; a body without lines or variables has no table of them.
-/

namespace Weft

/-- The bytes of a signed number of thirty-two bits. -/
def Bytes.ofInt32 (n : Int) : Bytes := ofU32 (Int32.ofInt n).toUInt32

/-- The bytes of a signed number of sixteen bits. -/
def Bytes.ofInt16 (n : Int) : Bytes := ofU16 (Int16.ofInt n).toUInt16

namespace Layout

/-- The bytes of the distance from `offset` to a label. -/
def distanceBytes (l : Layout) (offset : Nat) (label : Label) : Except Error Bytes := do
  return Bytes.ofInt32 (← l.distance offset label)

/-- The bytes of a `tableswitch` at `offset` behind its opcode. -/
def tableBytes (l : Layout) (offset : Nat) (default : Label) (low : Int32) (targets : List Label) :
    Except Error Bytes := do
  let first ← l.distanceBytes offset default
  let high := low.toInt + targets.length - 1
  if high < -2147483648 || 2147483647 < high then throw (.notSupported .switchRange)
  let rest ← targets.mapM (l.distanceBytes offset)
  return List.replicate (switchPadding offset) 0 ++
    (first ++ (Bytes.ofInt32 low.toInt ++ (Bytes.ofInt32 high ++ rest.flatten)))

/-- The bytes of a `lookupswitch` at `offset` behind its opcode. -/
def lookupBytes (l : Layout) (offset : Nat) (default : Label) (pairs : List (Int32 × Label)) :
    Except Error Bytes := do
  let first ← l.distanceBytes offset default
  let rest ← pairs.mapM fun (key, target) => do
    return Bytes.ofInt32 key.toInt ++ (← l.distanceBytes offset target)
  return List.replicate (switchPadding offset) 0 ++
    (first ++ (Bytes.ofInt32 pairs.length ++ rest.flatten))

/-- The bytes of an instruction at `offset`. -/
def instructionBytes (l : Layout) (offset : Nat) (wide : Bool) (i : Instruction) :
    Except Error Bytes := do
  let op := i.opcode.byte
  match i.operand with
  | .none => return [op]
  | .byte value => return [op, value.toUInt8]
  | .arrayType code => return [op, code]
  | .short value => return op :: Bytes.ofU16 value.toUInt16
  | .local index =>
    if isWideIndex index then return Opcode.wide.byte :: op :: Bytes.ofU16 index
    else return [op, index.toUInt8]
  | .increment index delta =>
    if isWideIndex index || !fitsByte delta then
      return Opcode.wide.byte :: op :: (Bytes.ofU16 index ++ Bytes.ofU16 delta.toUInt16)
    else return [op, index.toUInt8, delta.toInt8.toUInt8]
  | .constant index =>
    if i.opcode = .ldc then
      if index ≤ 255 then return [op, index.toUInt8]
      else return Opcode.ldcW.byte :: Bytes.ofU16 index
    else return op :: Bytes.ofU16 index
  | .invokeInterface index count => return op :: (Bytes.ofU16 index ++ [count, 0])
  | .invokeDynamic index => return op :: (Bytes.ofU16 index ++ [0, 0])
  | .multiArray index dimensions => return op :: (Bytes.ofU16 index ++ [dimensions])
  | .branch target =>
    let distance ← l.distance offset target
    if wide then
      let op := if i.opcode = .jsr then Opcode.jsrW else Opcode.gotoW
      return op.byte :: Bytes.ofInt32 distance
    else return op :: Bytes.ofInt16 distance
  | .tableSwitch default low targets => return op :: (← l.tableBytes offset default low targets)
  | .lookupSwitch default pairs => return op :: (← l.lookupBytes offset default pairs)

/-- The bytes of an item at its offset. -/
def itemBytes (l : Layout) (p : Placed) : Except Error Bytes :=
  match p.item with
  | .label _ => .ok []
  | .op i => l.instructionBytes p.offset p.wide i

/-- The bytes of the code. -/
def bytes (l : Layout) : Except Error Bytes :=
  List.flatten <$> l.items.mapM l.itemBytes

/-- The offset of a label in sixteen bits. -/
def pc (l : Layout) (label : Label) : Except Error UInt16 :=
  UInt16.ofNat <$> l.offsetOf label

/-- The entry of a handler, unless it covers no code. -/
def exceptionEntry? (l : Layout) (h : Handler) : Except Error (Option ExceptionEntry) := do
  let startPc ← l.pc h.start
  let endPc ← l.pc h.stop
  if startPc < endPc then return some ⟨startPc, endPc, ← l.pc h.target, h.catchType⟩
  else return none

/-- The entry of a line, unless it stands at the end. -/
def lineEntry? (l : Layout) (line : Label × UInt16) : Except Error (Option LineNumber) := do
  let startPc ← l.pc line.1
  return if startPc.toNat < l.size then some ⟨startPc, line.2⟩ else none

/-- The entry of a variable. -/
def localEntry (l : Layout) (v : LocalRange) : Except Error LocalVariable := do
  let startPc ← l.pc v.start
  let endPc ← l.pc v.stop
  return ⟨startPc, if startPc ≤ endPc then endPc - startPc else 0, v.name, v.descriptor, v.index⟩

/-- The entries of handlers. -/
def exceptionTable (l : Layout) (handlers : List Handler) : Except Error (List ExceptionEntry) :=
  List.filterMap id <$> handlers.mapM l.exceptionEntry?

/-- The entries of lines. -/
def lineTable (l : Layout) (lines : List (Label × UInt16)) : Except Error (List LineNumber) :=
  List.filterMap id <$> lines.mapM l.lineEntry?

end Layout

namespace Body

/-- The offset of each item of the code, and behind them the length of the code. -/
def offsets (b : Body) : Except Error (List Nat) :=
  Layout.offsets <$> Layout.ofCode b.code

/-- The table of lines, if the body has lines. -/
def lineAttributes (b : Body) (l : Layout) : Edit Pool (List Attribute) := do
  if b.lines.isEmpty then return []
  let entries ← l.lineTable b.lines
  return [← Attribute.named "LineNumberTable" (.lineNumberTable entries)]

/-- The table of variables, if the body has variables. -/
def localAttributes (b : Body) (l : Layout) : Edit Pool (List Attribute) := do
  if b.locals.isEmpty then return []
  let entries ← (b.locals.mapM l.localEntry : Except Error (List LocalVariable))
  return [← Attribute.named "LocalVariableTable" (.localVariableTable entries)]

/-- The code of the body; the names of its tables are added to the pool. -/
def toCode (b : Body) : Edit Pool CodeAttribute := do
  let l ← Layout.ofCode b.code
  let code ← l.bytes
  let exceptions ← l.exceptionTable b.handlers
  let lines ← b.lineAttributes l
  let locals ← b.localAttributes l
  return ⟨b.maxStack, b.maxLocals, code, exceptions, lines ++ locals⟩

end Body

end Weft
