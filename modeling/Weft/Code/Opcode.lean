/-!
# Opcodes

The opcodes of method code, one for each byte from `nop` to `jsr_w`, with their mnemonics and the
layout of the operands that follow each of them.
-/

namespace Weft

/-- How the operands after an opcode are laid out. -/
inductive OperandKind where
  | none | signedByte | unsignedByte | signedShort | local | increment | constant1 | constant2
  | invokeInterface | invokeDynamic | multiArray | branch2 | branch4 | tableSwitch | lookupSwitch
  | wide
  deriving DecidableEq, Repr, Inhabited

/-- The name of the layout. -/
def OperandKind.name : OperandKind → String
  | none => "None"
  | signedByte => "I1"
  | unsignedByte => "U1"
  | signedShort => "I2"
  | «local» => "Local"
  | increment => "Iinc"
  | constant1 => "Constant1"
  | constant2 => "Constant2"
  | invokeInterface => "InvokeInterface"
  | invokeDynamic => "InvokeDynamic"
  | multiArray => "MultiANewArray"
  | branch2 => "Branch2"
  | branch4 => "Branch4"
  | tableSwitch => "TableSwitch"
  | lookupSwitch => "LookupSwitch"
  | wide => "Wide"

/-- An opcode, by its byte. -/
structure Opcode where
  byte : UInt8
  known : byte ≤ 0xC9
  deriving DecidableEq

namespace Opcode

instance : Inhabited Opcode := ⟨⟨0, by decide⟩⟩

/-- The opcode of a byte, if there is one. -/
def ofByte? (byte : UInt8) : Option Opcode :=
  if h : byte ≤ 0xC9 then some ⟨byte, h⟩ else none

/-- The mnemonics, in the order of their bytes. -/
def mnemonics : Array String := #[
  "nop", "aconst_null", "iconst_m1", "iconst_0", "iconst_1", "iconst_2", "iconst_3", "iconst_4",
  "iconst_5", "lconst_0", "lconst_1", "fconst_0", "fconst_1", "fconst_2", "dconst_0",
  "dconst_1", "bipush", "sipush", "ldc", "ldc_w", "ldc2_w", "iload", "lload", "fload", "dload",
  "aload", "iload_0", "iload_1", "iload_2", "iload_3", "lload_0", "lload_1", "lload_2",
  "lload_3", "fload_0", "fload_1", "fload_2", "fload_3", "dload_0", "dload_1", "dload_2",
  "dload_3", "aload_0", "aload_1", "aload_2", "aload_3", "iaload", "laload", "faload", "daload",
  "aaload", "baload", "caload", "saload", "istore", "lstore", "fstore", "dstore", "astore",
  "istore_0", "istore_1", "istore_2", "istore_3", "lstore_0", "lstore_1", "lstore_2",
  "lstore_3", "fstore_0", "fstore_1", "fstore_2", "fstore_3", "dstore_0", "dstore_1",
  "dstore_2", "dstore_3", "astore_0", "astore_1", "astore_2", "astore_3", "iastore", "lastore",
  "fastore", "dastore", "aastore", "bastore", "castore", "sastore", "pop", "pop2", "dup",
  "dup_x1", "dup_x2", "dup2", "dup2_x1", "dup2_x2", "swap", "iadd", "ladd", "fadd", "dadd",
  "isub", "lsub", "fsub", "dsub", "imul", "lmul", "fmul", "dmul", "idiv", "ldiv", "fdiv",
  "ddiv", "irem", "lrem", "frem", "drem", "ineg", "lneg", "fneg", "dneg", "ishl", "lshl",
  "ishr", "lshr", "iushr", "lushr", "iand", "land", "ior", "lor", "ixor", "lxor", "iinc", "i2l",
  "i2f", "i2d", "l2i", "l2f", "l2d", "f2i", "f2l", "f2d", "d2i", "d2l", "d2f", "i2b", "i2c",
  "i2s", "lcmp", "fcmpl", "fcmpg", "dcmpl", "dcmpg", "ifeq", "ifne", "iflt", "ifge", "ifgt",
  "ifle", "if_icmpeq", "if_icmpne", "if_icmplt", "if_icmpge", "if_icmpgt", "if_icmple",
  "if_acmpeq", "if_acmpne", "goto", "jsr", "ret", "tableswitch", "lookupswitch", "ireturn",
  "lreturn", "freturn", "dreturn", "areturn", "return", "getstatic", "putstatic", "getfield",
  "putfield", "invokevirtual", "invokespecial", "invokestatic", "invokeinterface",
  "invokedynamic", "new", "newarray", "anewarray", "arraylength", "athrow", "checkcast",
  "instanceof", "monitorenter", "monitorexit", "wide", "multianewarray", "ifnull", "ifnonnull",
  "goto_w", "jsr_w"]

/-- The mnemonic of the opcode. -/
def mnemonic (op : Opcode) : String :=
  mnemonics.getD op.byte.toNat "?"

instance : ToString Opcode := ⟨mnemonic⟩

/-- How the operands of the opcode are laid out. -/
def operandKind (op : Opcode) : OperandKind :=
  let b := op.byte
  if b = 0x10 then .signedByte
  else if b = 0x11 then .signedShort
  else if b = 0x12 then .constant1
  else if b = 0x13 || b = 0x14 then .constant2
  else if (0x15 ≤ b && b ≤ 0x19) || (0x36 ≤ b && b ≤ 0x3A) || b = 0xA9 then .local
  else if b = 0x84 then .increment
  else if (0x99 ≤ b && b ≤ 0xA8) || b = 0xC6 || b = 0xC7 then .branch2
  else if b = 0xC8 || b = 0xC9 then .branch4
  else if b = 0xAA then .tableSwitch
  else if b = 0xAB then .lookupSwitch
  else if (0xB2 ≤ b && b ≤ 0xB8) || b = 0xBB || b = 0xBD || b = 0xC0 || b = 0xC1 then .constant2
  else if b = 0xB9 then .invokeInterface
  else if b = 0xBA then .invokeDynamic
  else if b = 0xBC then .unsignedByte
  else if b = 0xC4 then .wide
  else if b = 0xC5 then .multiArray
  else .none

/-- The opcode leaves the method normally. -/
def isReturn (op : Opcode) : Bool :=
  0xAC ≤ op.byte && op.byte ≤ 0xB1

/-- The instruction after the opcode is not reached from it. -/
def endsFlow (op : Opcode) : Bool :=
  op.isReturn || [0xBF, 0xA7, 0xC8, 0xA9, 0xAA, 0xAB].contains op.byte

/-- `nop`. -/
def nop : Opcode := ⟨0x00, by decide⟩

/-- `aconst_null`. -/
def aconstNull : Opcode := ⟨0x01, by decide⟩

/-- `iconst_m1` to `iconst_5`. -/
def iconst? (value : Int32) : Option Opcode :=
  if -1 ≤ value && value ≤ 5 then ofByte? (3 + value.toInt8.toUInt8) else none

/-- `bipush`. -/
def bipush : Opcode := ⟨0x10, by decide⟩

/-- `sipush`. -/
def sipush : Opcode := ⟨0x11, by decide⟩

/-- `ldc`. -/
def ldc : Opcode := ⟨0x12, by decide⟩

/-- `ldc_w`. -/
def ldcW : Opcode := ⟨0x13, by decide⟩

/-- `ldc2_w`. -/
def ldc2W : Opcode := ⟨0x14, by decide⟩

/-- `iload`. -/
def iload : Opcode := ⟨0x15, by decide⟩

/-- `lload`. -/
def lload : Opcode := ⟨0x16, by decide⟩

/-- `fload`. -/
def fload : Opcode := ⟨0x17, by decide⟩

/-- `dload`. -/
def dload : Opcode := ⟨0x18, by decide⟩

/-- `aload`. -/
def aload : Opcode := ⟨0x19, by decide⟩

/-- `istore`. -/
def istore : Opcode := ⟨0x36, by decide⟩

/-- `lstore`. -/
def lstore : Opcode := ⟨0x37, by decide⟩

/-- `fstore`. -/
def fstore : Opcode := ⟨0x38, by decide⟩

/-- `dstore`. -/
def dstore : Opcode := ⟨0x39, by decide⟩

/-- `astore`. -/
def astore : Opcode := ⟨0x3A, by decide⟩

/-- `aload_0`. -/
def aload0 : Opcode := ⟨0x2A, by decide⟩

/-- `aaload`. -/
def aaload : Opcode := ⟨0x32, by decide⟩

/-- `aastore`. -/
def aastore : Opcode := ⟨0x53, by decide⟩

/-- `pop`. -/
def pop : Opcode := ⟨0x57, by decide⟩

/-- `pop2`. -/
def pop2 : Opcode := ⟨0x58, by decide⟩

/-- `dup`. -/
def dup : Opcode := ⟨0x59, by decide⟩

/-- `dup2`. -/
def dup2 : Opcode := ⟨0x5C, by decide⟩

/-- `swap`. -/
def swap : Opcode := ⟨0x5F, by decide⟩

/-- `iinc`. -/
def iinc : Opcode := ⟨0x84, by decide⟩

/-- `ifeq`. -/
def ifeq : Opcode := ⟨0x99, by decide⟩

/-- `ifne`. -/
def ifne : Opcode := ⟨0x9A, by decide⟩

/-- `goto`. -/
def goto : Opcode := ⟨0xA7, by decide⟩

/-- `jsr`. -/
def jsr : Opcode := ⟨0xA8, by decide⟩

/-- `ireturn`. -/
def ireturn : Opcode := ⟨0xAC, by decide⟩

/-- `lreturn`. -/
def lreturn : Opcode := ⟨0xAD, by decide⟩

/-- `freturn`. -/
def freturn : Opcode := ⟨0xAE, by decide⟩

/-- `dreturn`. -/
def dreturn : Opcode := ⟨0xAF, by decide⟩

/-- `areturn`. -/
def areturn : Opcode := ⟨0xB0, by decide⟩

/-- `return`. -/
def voidReturn : Opcode := ⟨0xB1, by decide⟩

/-- `getstatic`. -/
def getstatic : Opcode := ⟨0xB2, by decide⟩

/-- `putstatic`. -/
def putstatic : Opcode := ⟨0xB3, by decide⟩

/-- `getfield`. -/
def getfield : Opcode := ⟨0xB4, by decide⟩

/-- `putfield`. -/
def putfield : Opcode := ⟨0xB5, by decide⟩

/-- `invokevirtual`. -/
def invokevirtual : Opcode := ⟨0xB6, by decide⟩

/-- `invokespecial`. -/
def invokespecial : Opcode := ⟨0xB7, by decide⟩

/-- `invokestatic`. -/
def invokestatic : Opcode := ⟨0xB8, by decide⟩

/-- `invokeinterface`. -/
def invokeinterface : Opcode := ⟨0xB9, by decide⟩

/-- `invokedynamic`. -/
def invokedynamic : Opcode := ⟨0xBA, by decide⟩

/-- `new`. -/
def newObject : Opcode := ⟨0xBB, by decide⟩

/-- `anewarray`. -/
def anewarray : Opcode := ⟨0xBD, by decide⟩

/-- `athrow`. -/
def athrow : Opcode := ⟨0xBF, by decide⟩

/-- `checkcast`. -/
def checkcast : Opcode := ⟨0xC0, by decide⟩

/-- `wide`. -/
def wide : Opcode := ⟨0xC4, by decide⟩

/-- `goto_w`. -/
def gotoW : Opcode := ⟨0xC8, by decide⟩

/-- `jsr_w`. -/
def jsrW : Opcode := ⟨0xC9, by decide⟩

end Opcode

end Weft
