import Std.Data.HashMap
import Weft.ClassFile.Pool
import Weft.Code.Body
import Weft.Edit

/-!
# Building method bodies

A builder writes code instruction by instruction, adds the constants that it needs to a pool, and
follows the depth of the operand stack. The depth at a label is that of the first branch to it, or
one at the start of a handler; it counts where control cannot come from the instruction before.
The body that is built has room for the greatest depth and for every local slot that was used.
-/

namespace Weft

/-- The state of building a body. -/
structure Builder where
  pool : Pool
  /-- The code so far, the last item first. -/
  written : List Item := []
  /-- The handlers so far, the last first. -/
  handlers : List Handler := []
  labelCount : UInt32 := 0
  depth : UInt16 := 0
  maxDepth : UInt16 := 0
  /-- The slots in use: those that were there at the start and those used since. -/
  nextLocal : UInt16 := 0
  labelDepths : Std.HashMap Label UInt16 := ∅
  /-- Control can come from the instruction before. -/
  reachable : Bool := true

/-- A step of building a body. -/
abbrev Build := Edit Builder

namespace Builder

/-- The start of a body whose parameters take that many slots. -/
def start (p : Pool) (locals : UInt16) : Builder := { pool := p, nextLocal := locals }

/-- The body that was built on `locals` slots. -/
def finish (locals : UInt16) (b : Builder) : Body where
  maxStack := b.maxDepth
  maxLocals := max locals b.nextLocal
  code := b.written.reverse
  handlers := b.handlers.reverse
  labelCount := b.labelCount

end Builder

namespace Build

/-- Runs an addition to the pool. -/
def onPool {α : Type} (add : StateM Pool α) : Build α := fun b =>
  let (a, pool) := add b.pool
  .ok a { b with pool }

/-- The depth of a branch's targets, where it is not known yet. -/
def noteDepth (depth : UInt16) (depths : Std.HashMap Label UInt16) (targets : List Label) :
    Std.HashMap Label UInt16 :=
  targets.foldl (fun m l => m.insertIfNew l depth) depths

/-- Appends an instruction that takes `pops` slots off the stack and puts `pushes` on it. -/
def emit (opcode : Opcode) (operand : Operand) (pops pushes : UInt16) : Build Unit := do
  let b ← get
  let i : Instruction := ⟨opcode, operand⟩
  if b.depth < pops then throw (.notSupported (.stackUnderflow i b.depth))
  let depth := b.depth - pops + pushes
  set { b with
    written := .op i :: b.written
    depth
    maxDepth := max b.maxDepth depth
    labelDepths := noteDepth depth b.labelDepths i.targets
    reachable := !opcode.endsFlow }

/-- Appends an instruction without an operand. -/
def op (opcode : Opcode) (pops pushes : UInt16) : Build Unit := emit opcode .none pops pushes

/-! ## Labels, handlers and slots -/

/-- A label that is not in use. -/
def newLabel : Build Label := modifyGet fun b =>
  (⟨b.labelCount⟩, { b with labelCount := b.labelCount + 1 })

/-- Puts a label here. -/
def place (l : Label) : Build Unit := modify fun b =>
  { b with
    written := .label l :: b.written
    depth := if b.reachable then b.depth else b.labelDepths.getD l 0
    reachable := true }

/-- Continues at `target` after exceptions between two labels, of a class or of any. -/
def handler (start stop target : Label) (caught : Option ClassName) : Build Unit := do
  let catchType ← match caught with
    | some name => onPool (Pool.addClass name.internal)
    | none => pure 0
  modify fun b =>
    { b with
      handlers := ⟨start, stop, target, catchType⟩ :: b.handlers
      labelDepths := b.labelDepths.insert target 1 }

/-- A slot for a value of the type. -/
def allocateLocal (t : JType) : Build UInt16 := modifyGet fun b =>
  (b.nextLocal, { b with nextLocal := b.nextLocal + max t.slots 1 })

/-- Counts a slot as used by a value of the type. -/
def useLocal (t : JType) (slot : UInt16) : Build Unit := modify fun b =>
  { b with nextLocal := max b.nextLocal (slot + t.slots) }

/-! ## Constants -/

/-- Puts null on the stack. -/
def pushNull : Build Unit := op .aconstNull 0 1

/-- Puts a number on the stack, by the shortest instruction. -/
def pushInt (value : Int32) : Build Unit :=
  match Opcode.iconst? value with
  | some opcode => op opcode 0 1
  | none =>
    if -128 ≤ value && value ≤ 127 then emit .bipush (.byte value.toInt8) 0 1
    else if -32768 ≤ value && value ≤ 32767 then emit .sipush (.short value.toInt16) 0 1
    else do emit .ldc (.constant (← onPool (Pool.addLiteral (.int value)))) 0 1

/-- Puts a literal on the stack. -/
def pushLiteral (value : Literal) : Build Unit :=
  match value with
  | .int v => pushInt v
  | .long _ | .double _ => do emit .ldc2W (.constant (← onPool (Pool.addLiteral value))) 0 2
  | .float _ | .string _ => do emit .ldc (.constant (← onPool (Pool.addLiteral value))) 0 1

/-- Puts a text on the stack. -/
def pushString (text : String) : Build Unit := pushLiteral (.string text)

/-! ## Slots and the stack -/

/-- The opcode for values of the type among one for each kind of value. -/
def byKind (int long float double reference : Opcode) : JType → Opcode
  | .primitive .long => long
  | .primitive .float => float
  | .primitive .double => double
  | .reference _ | .array .. => reference
  | _ => int

/-- Puts the value in a slot on the stack. -/
def load (t : JType) (slot : UInt16) : Build Unit := do
  if t.isVoid then throw (.notSupported .loadVoid)
  useLocal t slot
  emit (byKind .iload .lload .fload .dload .aload t) (.local slot) 0 t.slots

/-- Takes a value off the stack and keeps it in a slot. -/
def store (t : JType) (slot : UInt16) : Build Unit := do
  if t.isVoid then throw (.notSupported .storeVoid)
  useLocal t slot
  emit (byKind .istore .lstore .fstore .dstore .astore t) (.local slot) t.slots 0

/-- Puts the receiver on the stack. -/
def loadThis : Build Unit := op .aload0 0 1

/-- Puts another copy of the top slot on the stack. -/
def dup : Build Unit := op .dup 1 2

/-- Puts another copy of the top value on the stack. -/
def dupValue (t : JType) : Build Unit := if t.slots = 2 then op .dup2 2 4 else dup

/-- Takes a value off the stack. -/
def popValue (t : JType) : Build Unit :=
  if t.slots = 0 then pure ()
  else if t.slots = 2 then op .pop2 2 0
  else op .pop 1 0

/-- Exchanges the two top slots of the stack. -/
def swap : Build Unit := op .swap 2 2

/-! ## Objects and arrays -/

/-- Puts an object that has yet to be initialized on the stack. -/
def newObject (name : ClassName) : Build Unit := do
  emit .newObject (.constant (← onPool (Pool.addClass name.internal))) 0 1

/-- Checks that the top of the stack is a reference of the type; every reference is an object. -/
def checkcast (t : JType) : Build Unit := do
  if t = .object then return
  match t.classOperand? with
  | some name => emit .checkcast (.constant (← onPool (Pool.addClass name))) 1 1
  | none => throw (.notSupported (.castToPrimitive t))

/-- Makes an array of the length on the stack. -/
def newArray (element : JType) : Build Unit := do
  match element.classOperand? with
  | some name => emit .anewarray (.constant (← onPool (Pool.addClass name))) 1 1
  | none => throw (.notSupported (.arrayOfPrimitive element))

/-- Stores a reference in an array. -/
def arrayStore : Build Unit := op .aastore 3 0

/-- Takes a reference out of an array. -/
def arrayLoad : Build Unit := op .aaload 2 1

/-- Uses a field. -/
def field (opcode : Opcode) (owner : ClassName) (name : String) (t : JType)
    (pops pushes : UInt16) : Build Unit := do
  let index ← onPool (Pool.addFieldRef owner.internal name t.descriptor)
  emit opcode (.constant index) pops pushes

/-- Puts the value of an instance field on the stack. -/
def getField (owner : ClassName) (name : String) (t : JType) : Build Unit :=
  field .getfield owner name t 1 t.slots

/-- Stores a value in an instance field. -/
def putField (owner : ClassName) (name : String) (t : JType) : Build Unit :=
  field .putfield owner name t (1 + t.slots) 0

/-- Puts the value of a static field on the stack. -/
def getStatic (owner : ClassName) (name : String) (t : JType) : Build Unit :=
  field .getstatic owner name t 0 t.slots

/-- Stores a value in a static field. -/
def putStatic (owner : ClassName) (name : String) (t : JType) : Build Unit :=
  field .putstatic owner name t t.slots 0

/-! ## Calls -/

/-- Calls a method with the arguments on the stack, above a receiver unless it is static. -/
def invoke (opcode : Opcode) (owner : ClassName) (name : String) (d : MethodDescriptor)
    (isInterface : Bool) : Build Unit := do
  let index ← onPool (Pool.addMethodRef owner.internal name d.descriptor isInterface)
  let pops := d.paramSlots + if opcode = .invokestatic then 0 else 1
  if opcode = .invokeinterface then
    if 255 < pops then throw (.notSupported (.argumentCount owner name))
    emit opcode (.invokeInterface index pops.toUInt8) pops d.ret.slots
  else emit opcode (.constant index) pops d.ret.slots

/-- Calls the method that the receiver's class selects. -/
def invokeVirtual (owner : ClassName) (name : String) (d : MethodDescriptor) : Build Unit :=
  invoke .invokevirtual owner name d false

/-- Calls exactly the named method on a receiver. -/
def invokeSpecial (owner : ClassName) (name : String) (d : MethodDescriptor) : Build Unit :=
  invoke .invokespecial owner name d false

/-- Calls a static method of a class. -/
def invokeStatic (owner : ClassName) (name : String) (d : MethodDescriptor) : Build Unit :=
  invoke .invokestatic owner name d false

/-- Calls a static method of an interface. -/
def invokeStaticInterface (owner : ClassName) (name : String) (d : MethodDescriptor) :
    Build Unit :=
  invoke .invokestatic owner name d true

/-- Calls a method of an interface that the receiver's class implements. -/
def invokeInterface (owner : ClassName) (name : String) (d : MethodDescriptor) : Build Unit :=
  invoke .invokeinterface owner name d true

/-- Puts a value into an object; references are objects already. -/
def box (t : JType) : Build Unit := do
  if t.isVoid then throw (.notSupported .boxVoid)
  match t.boxed? with
  | some wrapper => invokeStatic wrapper "valueOf" ⟨[t], .reference wrapper⟩
  | none => pure ()

/-- Takes a value of the type out of an object. -/
def unbox (t : JType) : Build Unit := do
  if t.isVoid then throw (.notSupported .unboxVoid)
  match t with
  | .primitive p =>
    checkcast (.reference p.boxed)
    invokeVirtual p.boxed p.unboxMethod ⟨[], t⟩
  | _ => checkcast t

/-! ## Control -/

/-- Returns a value of the type. -/
def returnValue (t : JType) : Build Unit :=
  if t.isVoid then op .voidReturn 0 0
  else op (byKind .ireturn .lreturn .freturn .dreturn .areturn t) t.slots 0

/-- Throws the exception on the stack. -/
def throwTop : Build Unit := op .athrow 1 0

/-- Continues at a label. -/
def goto (l : Label) : Build Unit := emit .goto (.branch l) 0 0

/-- Continues at a label if the number on the stack is zero. -/
def ifZero (l : Label) : Build Unit := emit .ifeq (.branch l) 1 0

/-- Continues at a label unless the number on the stack is zero. -/
def ifNonZero (l : Label) : Build Unit := emit .ifne (.branch l) 1 0

/-! ## Arguments -/

/-- Puts the values in slots from `slot` on, one for each type, on the stack. -/
def loadEach : List JType → UInt16 → Build Unit
  | [], _ => pure ()
  | t :: ts, slot => do
    load t slot
    loadEach ts (slot + t.slots)

/-- Puts the arguments in slots from `slot` on the stack. -/
def loadArguments (d : MethodDescriptor) (slot : UInt16) : Build Unit := loadEach d.params slot

/-- Stores boxed values from slots in an array from an index on. -/
def packEach : List JType → Nat → UInt16 → Build Unit
  | [], _, _ => pure ()
  | t :: ts, index, slot => do
    dup
    pushInt (Int32.ofNat index)
    load t slot
    box t
    arrayStore
    packEach ts (index + 1) (slot + t.slots)

/-- Puts an array of the boxed arguments in slots from `slot` on the stack. -/
def packArguments (d : MethodDescriptor) (slot : UInt16) : Build Unit := do
  pushInt (Int32.ofNat d.params.length)
  newArray .object
  packEach d.params 0 slot

/-- Puts unboxed values of an array from an index on the stack. -/
def unpackEach (array : UInt16) : List JType → Nat → Build Unit
  | [], _ => pure ()
  | t :: ts, index => do
    load .object array
    pushInt (Int32.ofNat index)
    arrayLoad
    unbox t
    unpackEach array ts (index + 1)

/-- Puts the arguments in the array of a slot on the stack, unboxed. -/
def unpackArguments (d : MethodDescriptor) (array : UInt16) : Build Unit :=
  unpackEach array d.params 0

end Build

/-- The body that is built on `locals` slots; its constants are added to the pool. -/
def Body.build (locals : UInt16) (code : Build Unit) : Edit Pool Body := fun p =>
  match code (.start p locals) with
  | .ok _ b => .ok (b.finish locals) b.pool
  | .error e b => .error e b.pool

end Weft
