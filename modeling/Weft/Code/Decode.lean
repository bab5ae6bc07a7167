import Std.Data.HashMap
import Std.Data.HashSet
import Weft.ClassFile.Attribute
import Weft.Code.Body

/-!
# Decoding method bodies

Bytes are read as instructions, each at an offset and with the offsets of its targets in place of
labels. A body of these instructions numbers the offsets that something refers to, in increasing
order, and puts a label at each. Branches and handlers have to lead to instructions; lines and
variables that do not stand at instructions are dropped.
-/

namespace Weft

/-! ## Instructions at offsets -/

/-- An instruction with the offset at which it stands; its labels are numbered by offsets. -/
structure Located where
  offset : Nat
  instruction : Instruction
  deriving DecidableEq, Inhabited

namespace Reader

/-- The target at a distance from `offset`. -/
def target (offset : Nat) (distance : Int) : Reader Label :=
  let place := (offset : Int) + distance
  if 0 ≤ place ∧ place ≤ 65535 then return ⟨UInt32.ofNat place.toNat⟩
  else throw (.malformed (.branchRange offset))

/-- A target behind a distance of thirty-two bits. -/
def farTarget (offset : Nat) : Reader Label := do target offset (← i32).toInt

/-- Skips the bytes before the next multiple of four. -/
def align4 : Reader Unit := do
  let _ ← bytes ((4 - (← pos) % 4) % 4)

/-- Fails unless `n` bytes are left. -/
def require (n : Nat) : Reader Unit := fun s =>
  match s.rest.splitAt? n with
  | some _ => .ok () s
  | none => .error .outOfBounds s

/-- The rest of a `tableswitch` at `offset`. -/
def tableSwitch (offset : Nat) : Reader Operand := do
  align4
  let default ← farTarget offset
  let low ← i32
  let high ← i32
  if high < low then throw (.malformed (.tableRange offset))
  let count := (high.toInt - low.toInt + 1).toNat
  require (count * 4)
  return .tableSwitch default low (← times count (farTarget offset))

/-- The rest of a `lookupswitch` at `offset`. -/
def lookupSwitch (offset : Nat) : Reader Operand := do
  align4
  let default ← farTarget offset
  let count ← i32
  if count < 0 then throw (.malformed (.lookupSize offset))
  let count := count.toInt.toNat
  require (count * 8)
  return .lookupSwitch default (← times count do return (← i32, ← farTarget offset))

/-- The rest of an instruction behind `wide`, at `offset`. -/
def wideInstruction (offset : Nat) : Reader Instruction := do
  let byte ← u8
  let refused : Reader Instruction := throw (.malformed (.wideOpcode byte offset))
  match Opcode.ofByte? byte with
  | none => refused
  | some op =>
    match op.operandKind with
    | .local => return ⟨op, .local (← u16)⟩
    | .increment => return ⟨op, .increment (← u16) (← i16)⟩
    | _ => refused

/-- The operand of an opcode at `offset`. -/
def operand (offset : Nat) : OperandKind → Reader Operand
  | .none | .wide => return .none
  | .signedByte => return .byte (← i8)
  | .unsignedByte => return .arrayType (← u8)
  | .signedShort => return .short (← i16)
  | .local => return .local (← u8).toUInt16
  | .increment => return .increment (← u8).toUInt16 (← i8).toInt16
  | .constant1 => return .constant (← u8).toUInt16
  | .constant2 => return .constant (← u16)
  | .invokeInterface => do
    let index ← u16
    let count ← u8
    let _ ← u8
    return .invokeInterface index count
  | .invokeDynamic => do
    let index ← u16
    let _ ← u16
    return .invokeDynamic index
  | .multiArray => return .multiArray (← u16) (← u8)
  | .branch2 => return .branch (← target offset (← i16).toInt)
  | .branch4 => return .branch (← farTarget offset)
  | .tableSwitch => tableSwitch offset
  | .lookupSwitch => lookupSwitch offset

end Reader

/-- The opcode that stands for `op` whatever the width of its operand. -/
def Opcode.narrow (op : Opcode) : Opcode :=
  if op = ldcW then ldc
  else if op = gotoW then goto
  else if op = jsrW then jsr
  else op

/-- Reads the instruction at `offset`. -/
def Instruction.read (offset : Nat) : Reader Instruction := do
  let byte ← Reader.u8
  match Opcode.ofByte? byte with
  | none => throw (.malformed (.opcode byte offset))
  | some op =>
    if op.operandKind = .wide then Reader.wideInstruction offset
    else return ⟨op.narrow, ← Reader.operand offset op.operandKind⟩

namespace Located

/-- Reads instructions up to the end of the input; each takes at least one byte of `fuel`. -/
def readAll : Nat → List Located → Reader (List Located)
  | 0, acc => return acc.reverse
  | fuel + 1, acc => do
    if ← Reader.hasMore then
      let offset ← Reader.pos
      let instruction ← Instruction.read offset
      readAll fuel (⟨offset, instruction⟩ :: acc)
    else return acc.reverse

/-- The instructions of code. -/
def ofBytes (code : Bytes) : Except Error (List Located) :=
  (readAll code.length []).parse code

/-- The offsets that an instruction leads to. -/
def targetOffsets (i : Located) : List Nat :=
  i.instruction.targets.map (·.number.toNat)

end Located

/-! ## Labelling -/

/-- The offsets of instructions in code of that length. -/
structure Boundaries where
  starts : Std.HashSet Nat
  length : Nat

namespace Boundaries

/-- The boundaries of located instructions. -/
def ofCode (code : List Located) (length : Nat) : Boundaries :=
  ⟨.ofList (code.map (·.offset)), length⟩

/-- An instruction starts at the offset. -/
def isStart (b : Boundaries) (offset : Nat) : Bool :=
  offset != b.length && b.starts.contains offset

/-- An instruction starts or the code ends at the offset. -/
def isBoundary (b : Boundaries) (offset : Nat) : Bool :=
  offset == b.length || b.starts.contains offset

/-- Fails unless each target of an instruction is an instruction. -/
def checkTargets (b : Boundaries) (i : Located) : Except Error Unit :=
  match i.targetOffsets.find? (!b.isStart ·) with
  | some target => .error (.malformed (.branchTarget i.offset target))
  | none => .ok ()

/-- Fails unless a handler covers code and leads to an instruction. -/
def checkException (b : Boundaries) (e : ExceptionEntry) : Except Error Unit :=
  if e.startPc < e.endPc && b.isBoundary e.startPc.toNat && b.isBoundary e.endPc.toNat &&
      b.isStart e.handlerPc.toNat then .ok ()
  else .error (.malformed (.exceptionRange e.startPc e.endPc e.handlerPc))

end Boundaries

/-- The lines in the tables among attributes. -/
def lineEntries (attributes : List Attribute) : List LineNumber :=
  attributes.flatMap fun a => match a.body with
    | .lineNumberTable entries => entries
    | _ => []

/-- The variables in the tables among attributes. -/
def localEntries (attributes : List Attribute) : List LocalVariable :=
  attributes.flatMap fun a => match a.body with
    | .localVariableTable entries => entries
    | _ => []

namespace LocalVariable

/-- The offset at which the range of the variable starts. -/
def startOffset (v : LocalVariable) : Nat := v.startPc.toNat

/-- The offset at which the range of the variable ends. -/
def stopOffset (v : LocalVariable) : Nat := v.startPc.toNat + v.length.toNat

end LocalVariable

namespace ExceptionEntry

/-- The offsets that the handler refers to. -/
def offsets (e : ExceptionEntry) : List Nat :=
  [e.startPc.toNat, e.endPc.toNat, e.handlerPc.toNat]

end ExceptionEntry

/-- The labels of offsets. -/
abbrev LabelTable := Std.HashMap Nat Label

namespace LabelTable

/-- Numbers those of the offsets that are referred to. -/
def number (referenced : Std.HashSet Nat) (offsets : List Nat) : LabelTable :=
  .ofList ((offsets.filter referenced.contains).zipIdx.map fun (offset, i) =>
    (offset, ⟨UInt32.ofNat i⟩))

/-- The label of an offset that is in the table. -/
def label (table : LabelTable) (offset : Nat) : Label := table.getD offset ⟨0⟩

/-- The label at an offset, as an item of code. -/
def mark (table : LabelTable) (offset : Nat) : List Item :=
  match table[offset]? with
  | some l => [.label l]
  | none => []

/-- An instruction behind the label of its offset, its targets by label. -/
def items (table : LabelTable) (i : Located) : List Item :=
  table.mark i.offset ++ [.op (i.instruction.mapLabels fun l => table.label l.number.toNat)]

end LabelTable

namespace Body

/-- The instruction refers to a constant of the pool, or to none. -/
def constantInRange (p : Pool) (i : Instruction) : Bool :=
  i.constantIndex?.all fun index => index != 0 && decide (index.toNat < p.size)

/-- The body of a method with that code in a class with that pool. -/
def ofCode (c : CodeAttribute) (p : Pool) : Except Error Body := do
  let located ← Located.ofBytes c.code
  let boundaries := Boundaries.ofCode located c.code.length
  located.forM boundaries.checkTargets
  c.exceptions.forM boundaries.checkException
  let lines := (lineEntries c.attributes).filter fun l => boundaries.isStart l.startPc.toNat
  let locals := (localEntries c.attributes).filter fun v =>
    boundaries.isBoundary v.startOffset && boundaries.isBoundary v.stopOffset
  let referenced := Std.HashSet.ofList (located.flatMap Located.targetOffsets ++
    (c.exceptions.flatMap ExceptionEntry.offsets ++ (lines.map (·.startPc.toNat) ++
      locals.flatMap fun v => [v.startOffset, v.stopOffset])))
  let labels := LabelTable.number referenced (located.map (·.offset) ++ [c.code.length])
  let place := labels.label
  let body : Body := {
    maxStack := c.maxStack
    maxLocals := c.maxLocals
    code := located.flatMap labels.items ++ labels.mark c.code.length
    handlers := c.exceptions.map fun e =>
      ⟨place e.startPc.toNat, place e.endPc.toNat, place e.handlerPc.toNat, e.catchType⟩
    lines := lines.map fun l => (place l.startPc.toNat, l.line)
    locals := locals.map fun v =>
      ⟨place v.startOffset, place v.stopOffset, v.name, v.descriptor, v.index⟩
    labelCount := UInt32.ofNat labels.size }
  match body.instructions.find? (!constantInRange p ·) with
  | some i => throw (.malformed (.constantOperand i))
  | none => return body

end Body

end Weft
