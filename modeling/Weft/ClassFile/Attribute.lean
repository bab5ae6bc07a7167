import Weft.ClassFile.Access
import Weft.ClassFile.Annotations
import Weft.ClassFile.Options
import Weft.ClassFile.Pool

/-!
# Attributes

An attribute is a name in the pool with a body. The names that the library knows decide the shape
of the body; any other body is kept as bytes. The code of a method has attributes of its own. Every
table is written behind its length and refused when the length has no room for it.
-/

namespace Weft

/-- A range of code that an exception handler covers. -/
structure ExceptionEntry where
  startPc : UInt16
  endPc : UInt16
  handlerPc : UInt16
  catchType : UInt16
  deriving DecidableEq, Inhabited

/-- The name and the flags of a method parameter. -/
structure MethodParameter where
  name : UInt16
  access : UInt16
  deriving DecidableEq, Inhabited

/-- A class that is a member of another or local to it. -/
structure InnerClass where
  inner : UInt16
  outer : UInt16
  name : UInt16
  access : Access
  deriving DecidableEq, Inhabited

/-- The source line of the code from an offset on. -/
structure LineNumber where
  startPc : UInt16
  line : UInt16
  deriving DecidableEq, Inhabited

/-- The variable in a local slot over a range of code. -/
structure LocalVariable where
  startPc : UInt16
  length : UInt16
  name : UInt16
  descriptor : UInt16
  index : UInt16
  deriving DecidableEq, Inhabited

/-- The mark of an injector on an image that it has woven. -/
structure WovenStamp where
  injector : UInt16
  modified : Bool
  deriving DecidableEq, Inhabited

mutual

/-- A named attribute. -/
structure Attribute where
  name : UInt16
  body : AttributeBody

/-- The content of an attribute. -/
inductive AttributeBody where
  | code (code : CodeAttribute)
  | constantValue (index : UInt16)
  | exceptions (indices : List UInt16)
  | signature (index : UInt16)
  | sourceFile (index : UInt16)
  | methodParameters (parameters : List MethodParameter)
  | annotations (visible : Bool) (items : List AnnotationData)
  | parameterAnnotations (visible : Bool) (parameters : List (List AnnotationData))
  | innerClasses (entries : List InnerClass)
  | enclosingMethod (owner method : UInt16)
  | nestHost (index : UInt16)
  | nestMembers (indices : List UInt16)
  | lineNumberTable (entries : List LineNumber)
  | localVariableTable (entries : List LocalVariable)
  | woven (stamp : WovenStamp)
  | raw (bytes : Bytes)

/-- The code of a method. -/
structure CodeAttribute where
  maxStack : UInt16
  maxLocals : UInt16
  code : Bytes
  exceptions : List ExceptionEntry
  attributes : List Attribute

end

instance : Inhabited AttributeBody := ⟨.raw []⟩

instance : Inhabited Attribute := ⟨⟨0, .raw []⟩⟩

instance : Inhabited CodeAttribute := ⟨⟨0, 0, [], [], []⟩⟩

mutual

/-- The two attributes are the same. -/
def Attribute.beq : Attribute → Attribute → Bool
  | ⟨m, x⟩, ⟨n, y⟩ => m == n && x.beq y

/-- The two bodies are the same. -/
def AttributeBody.beq : AttributeBody → AttributeBody → Bool
  | .code x, .code y => x.beq y
  | .constantValue i, .constantValue j => i == j
  | .exceptions xs, .exceptions ys => xs == ys
  | .signature i, .signature j => i == j
  | .sourceFile i, .sourceFile j => i == j
  | .methodParameters xs, .methodParameters ys => xs == ys
  | .annotations v xs, .annotations w ys => v == w && xs == ys
  | .parameterAnnotations v xs, .parameterAnnotations w ys => v == w && xs == ys
  | .innerClasses xs, .innerClasses ys => xs == ys
  | .enclosingMethod c m, .enclosingMethod d n => c == d && m == n
  | .nestHost i, .nestHost j => i == j
  | .nestMembers xs, .nestMembers ys => xs == ys
  | .lineNumberTable xs, .lineNumberTable ys => xs == ys
  | .localVariableTable xs, .localVariableTable ys => xs == ys
  | .woven s, .woven t => s == t
  | .raw xs, .raw ys => xs == ys
  | _, _ => false

/-- The two codes are the same. -/
def CodeAttribute.beq : CodeAttribute → CodeAttribute → Bool
  | ⟨s, l, c, es, xs⟩, ⟨t, m, d, fs, ys⟩ =>
    s == t && l == m && c == d && es == fs && beqAttributes xs ys

/-- The two lists hold the same attributes. -/
def beqAttributes : List Attribute → List Attribute → Bool
  | [], [] => true
  | x :: xs, y :: ys => x.beq y && beqAttributes xs ys
  | _, _ => false

end

instance : BEq Attribute := ⟨Attribute.beq⟩

instance : BEq CodeAttribute := ⟨CodeAttribute.beq⟩

namespace AttributeBody

/-- The code that the body holds. -/
def code? : AttributeBody → Option CodeAttribute
  | code c => some c
  | _ => none

/-- The body is kept as bytes. -/
def isRaw : AttributeBody → Bool
  | raw _ => true
  | _ => false

/-- The body names the host of a nest. -/
def isNestHost : AttributeBody → Bool
  | nestHost _ => true
  | _ => false

end AttributeBody

/-! ## Reading -/

namespace Attribute

/-- Reads a body other than code under that name; `none` for other names. -/
def readPlain (options : DecodeOptions) (name : String) : Option (Reader AttributeBody) :=
  let annotation := AnnotationData.read options.annotationDepth
  let parameterAnnotations (visible : Bool) : Reader AttributeBody := do
    return .parameterAnnotations visible
      (← Reader.times (← Reader.u8).toNat (Reader.table annotation))
  match name with
  | "ConstantValue" => some do return .constantValue (← Reader.u16)
  | "Exceptions" => some do return .exceptions (← Reader.table Reader.u16)
  | "Signature" => some do return .signature (← Reader.u16)
  | "SourceFile" => some do return .sourceFile (← Reader.u16)
  | "MethodParameters" => some do
    return .methodParameters
      (← Reader.times (← Reader.u8).toNat do return ⟨← Reader.u16, ← Reader.u16⟩)
  | "RuntimeVisibleAnnotations" => some do return .annotations true (← Reader.table annotation)
  | "RuntimeInvisibleAnnotations" => some do return .annotations false (← Reader.table annotation)
  | "RuntimeVisibleParameterAnnotations" => some (parameterAnnotations true)
  | "RuntimeInvisibleParameterAnnotations" => some (parameterAnnotations false)
  | "InnerClasses" => some do
    return .innerClasses (← Reader.table do
      return ⟨← Reader.u16, ← Reader.u16, ← Reader.u16, ⟨← Reader.u16⟩⟩)
  | "EnclosingMethod" => some do return .enclosingMethod (← Reader.u16) (← Reader.u16)
  | "NestHost" => some do return .nestHost (← Reader.u16)
  | "NestMembers" => some do return .nestMembers (← Reader.table Reader.u16)
  | "LineNumberTable" => some do
    return .lineNumberTable (← Reader.table do return ⟨← Reader.u16, ← Reader.u16⟩)
  | "LocalVariableTable" => some do
    return .localVariableTable (← Reader.table do
      return ⟨← Reader.u16, ← Reader.u16, ← Reader.u16, ← Reader.u16, ← Reader.u16⟩)
  | "classweave.Woven" => some do return .woven ⟨← Reader.u16, (← Reader.u8) != 0⟩
  | _ => none

/-- Reads the code of a method, its attributes by `inner`. -/
def readCode (inner : Reader Attribute) : Reader CodeAttribute := do
  let maxStack ← Reader.u16
  let maxLocals ← Reader.u16
  let code ← Reader.block
  let length := code.length
  if length = 0 || 65535 < length then throw (.malformed (.codeLength length))
  let exceptions ← Reader.table do
    return ExceptionEntry.mk (← Reader.u16) (← Reader.u16) (← Reader.u16) (← Reader.u16)
  return ⟨maxStack, maxLocals, code, exceptions, ← Reader.table inner⟩

/-- Decodes the body in a block under that name, the attributes of code by `inner`. -/
def decodeBody (options : DecodeOptions) (inner : Reader Attribute) (name : String)
    (block : Bytes) : Except Error AttributeBody := do
  let body? :=
    if name = "Code" then some do return .code (← readCode inner)
    else readPlain options name
  match body? with
  | none => return .raw block
  | some body =>
    let whole : Reader (AttributeBody × Bytes) := do return (← body, (← get).rest)
    let (body, rest) ← whole.parse block
    if rest.isEmpty then return body
    else throw (.malformed (.attributeTail name rest.length))

/-- Reads an attribute in which code nests less than `depth` deep. Code within code is shorter than
what holds it, so the length of an image bounds the depth. -/
def read (options : DecodeOptions) (p : Pool) : Nat → Reader Attribute
  | 0 => Reader.short
  | depth + 1 => do
    let name ← Reader.u16
    let block ← Reader.block
    let body := do decodeBody options (read options p depth) (← p.utf8 name) block
    match body with
    | .ok body => return ⟨name, body⟩
    | .error e => throw e

/-- Reads a table of attributes in which code nests less than `depth` deep. -/
def readTable (options : DecodeOptions) (p : Pool) (depth : Nat) : Reader (List Attribute) :=
  Reader.table (read options p depth)

end Attribute

/-! ## Writing -/

/-- The bytes of a table of at most 65535 entries behind its length. -/
def tableBytes {α : Type} (entry : α → Bytes) (entries : List α) : Except Error Bytes :=
  let n := entries.length
  if n < 65536 then .ok (Bytes.ofU16 (UInt16.ofNat n) ++ entries.flatMap entry)
  else .error (.notSupported (.tableSize n))

/-- The bytes of a block of less than four gigabytes behind its length. -/
def blockBytes (cause : Unsupported) (block : Bytes) : Except Error Bytes :=
  let n := block.length
  if n < 4294967296 then .ok (Bytes.ofU32 (UInt32.ofNat n) ++ block)
  else .error (.notSupported cause)

/-- The bytes of a range that an exception handler covers. -/
def ExceptionEntry.write (e : ExceptionEntry) : Bytes :=
  [e.startPc, e.endPc, e.handlerPc, e.catchType].flatMap Bytes.ofU16

/-- The bytes of a parameter's name and flags. -/
def MethodParameter.write (p : MethodParameter) : Bytes :=
  [p.name, p.access].flatMap Bytes.ofU16

/-- The bytes of an inner class. -/
def InnerClass.write (c : InnerClass) : Bytes :=
  [c.inner, c.outer, c.name, c.access.bits].flatMap Bytes.ofU16

/-- The bytes of a line. -/
def LineNumber.write (l : LineNumber) : Bytes :=
  [l.startPc, l.line].flatMap Bytes.ofU16

/-- The bytes of a variable. -/
def LocalVariable.write (v : LocalVariable) : Bytes :=
  [v.startPc, v.length, v.name, v.descriptor, v.index].flatMap Bytes.ofU16

/-- The bytes of the annotations of parameters behind the number of parameters. -/
def parameterAnnotationBytes (parameters : List (List AnnotationData)) : Except Error Bytes := do
  let n := parameters.length
  if n < 256 then
    let tables ← parameters.mapM (tableBytes AnnotationData.write)
    return UInt8.ofNat n :: tables.flatten
  else throw (.notSupported .annotatedParameterCount)

mutual

/-- The bytes of an attribute. -/
def Attribute.write : Attribute → Except Error Bytes
  | ⟨name, body⟩ => do
    let block ← body.write
    return Bytes.ofU16 name ++ (← blockBytes .attributeSize block)

/-- The bytes of a body. -/
def AttributeBody.write : AttributeBody → Except Error Bytes
  | .code c => c.write
  | .constantValue index => .ok (Bytes.ofU16 index)
  | .signature index => .ok (Bytes.ofU16 index)
  | .sourceFile index => .ok (Bytes.ofU16 index)
  | .nestHost index => .ok (Bytes.ofU16 index)
  | .exceptions indices => tableBytes Bytes.ofU16 indices
  | .nestMembers indices => tableBytes Bytes.ofU16 indices
  | .methodParameters parameters =>
    let n := parameters.length
    if n < 256 then .ok (UInt8.ofNat n :: parameters.flatMap MethodParameter.write)
    else .error (.notSupported .methodParameterCount)
  | .annotations _ items => tableBytes AnnotationData.write items
  | .parameterAnnotations _ parameters => parameterAnnotationBytes parameters
  | .innerClasses entries => tableBytes InnerClass.write entries
  | .enclosingMethod owner method => .ok (Bytes.ofU16 owner ++ Bytes.ofU16 method)
  | .lineNumberTable entries => tableBytes LineNumber.write entries
  | .localVariableTable entries => tableBytes LocalVariable.write entries
  | .woven stamp => .ok (Bytes.ofU16 stamp.injector ++ [if stamp.modified then 1 else 0])
  | .raw bytes => .ok bytes

/-- The bytes of the code of a method. -/
def CodeAttribute.write : CodeAttribute → Except Error Bytes
  | ⟨maxStack, maxLocals, code, exceptions, attributes⟩ => do
    let code ← blockBytes .codeSize code
    let exceptions ← tableBytes ExceptionEntry.write exceptions
    let n := attributes.length
    if n < 65536 then
      return Bytes.ofU16 maxStack ++ (Bytes.ofU16 maxLocals ++ (code ++ (exceptions ++
        (Bytes.ofU16 (UInt16.ofNat n) ++ (← writeAttributes attributes)))))
    else throw (.notSupported (.tableSize n))

/-- The bytes of attributes one behind the other. -/
def writeAttributes : List Attribute → Except Error Bytes
  | [] => .ok []
  | a :: as => do
    let first ← a.write
    return first ++ (← writeAttributes as)

end

/-- The bytes of a table of attributes. -/
def attributeTableBytes (attributes : List Attribute) : Except Error Bytes := do
  let n := attributes.length
  if n < 65536 then return Bytes.ofU16 (UInt16.ofNat n) ++ (← writeAttributes attributes)
  else throw (.notSupported (.tableSize n))

/-- The attribute of that name, which is added to the pool. -/
def Attribute.named (name : String) (body : AttributeBody) : StateM Pool Attribute := do
  return ⟨← Pool.addUtf8 name, body⟩

end Weft
