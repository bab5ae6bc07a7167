import Weft.ClassFile.Basic
import Weft.Describe.Error
import Weft.Describe.Signature

/-!
# Descriptions of class files

Constants and attributes are lists of their kind and content; members and class files are records in
which what has to be resolved through the pool stands as a result.
-/

namespace Weft

instance : Describe Access := ⟨fun a => doc a.bits⟩

instance : Describe Literal where
  doc
    | .int v => .tagged "int" [doc v]
    | .long v => .tagged "long" [doc v]
    | .float bits => .tagged "float" [.bits32 bits]
    | .double bits => .tagged "double" [.bits64 bits]
    | .string s => .tagged "string" [doc s]

instance : Describe Constant where
  doc
    | .unusable => .tagged "unusable" []
    | .utf8 s => .tagged "utf8" [doc s]
    | .integer v => .tagged "integer" [doc v]
    | .float bits => .tagged "float" [.bits32 bits]
    | .long v => .tagged "long" [doc v]
    | .double bits => .tagged "double" [.bits64 bits]
    | .classRef i => .tagged "class" [doc i]
    | .string i => .tagged "string" [doc i]
    | .fieldRef i j => .tagged "fieldref" [doc i, doc j]
    | .methodRef i j => .tagged "methodref" [doc i, doc j]
    | .interfaceMethodRef i j => .tagged "imethodref" [doc i, doc j]
    | .nameAndType i j => .tagged "nat" [doc i, doc j]
    | .methodHandle k i => .tagged "handle" [doc k, doc i]
    | .methodType i => .tagged "methodtype" [doc i]
    | .dynamic i j => .tagged "dynamic" [doc i, doc j]
    | .invokeDynamic i j => .tagged "indy" [doc i, doc j]
    | .module i => .tagged "module" [doc i]
    | .package i => .tagged "package" [doc i]

/-- A pool of at most 400 slots is described by its constants, a larger one by its size. -/
instance : Describe Pool where
  doc p := if p.size ≤ 400 then doc p.constants else .record [("entries", doc p.size)]

instance : Describe MemberRef where
  doc m := .record [("owner", doc m.owner), ("name", doc m.name), ("descriptor", doc m.descriptor),
    ("interface", doc m.isInterface)]

mutual

/-- The description of an annotation element. -/
def ElementValue.describe : ElementValue → Doc
  | .const tag index => .tagged (Char.ofNat tag.toNat).toString [doc index]
  | .enum typeName constName => .tagged "e" [doc typeName, doc constName]
  | .classInfo index => .tagged "c" [doc index]
  | .nested type elements => .tagged "@" [
      .record [("type", doc type), ("elements", .list (ElementValue.describeNamed elements))]]
  | .array items => .tagged "[" [.list (ElementValue.describeAll items)]

/-- The descriptions of named elements. -/
def ElementValue.describeNamed : List (UInt16 × ElementValue) → List Doc
  | [] => []
  | (name, value) :: rest => .list [doc name, value.describe] :: ElementValue.describeNamed rest

/-- The descriptions of elements. -/
def ElementValue.describeAll : List ElementValue → List Doc
  | [] => []
  | value :: rest => value.describe :: ElementValue.describeAll rest

end

instance : Describe AnnotationData where
  doc a := .record [("type", doc a.type),
    ("elements", .list (ElementValue.describeNamed a.elements))]

instance : Describe ExceptionEntry :=
  ⟨fun e => doc [e.startPc, e.endPc, e.handlerPc, e.catchType]⟩

instance : Describe MethodParameter := ⟨fun p => doc [p.name, p.access]⟩

instance : Describe InnerClass := ⟨fun c => doc [c.inner, c.outer, c.name, c.access.bits]⟩

instance : Describe LineNumber := ⟨fun l => doc [l.startPc, l.line]⟩

instance : Describe LocalVariable :=
  ⟨fun v => doc [v.startPc, v.length, v.name, v.descriptor, v.index]⟩

mutual

/-- The description of an attribute. -/
def Attribute.describe : Attribute → Doc
  | ⟨name, body⟩ => .list (doc name :: body.describe)

/-- The kind of a body and its description. -/
def AttributeBody.describe : AttributeBody → List Doc
  | .code c => [.text "Code", c.describe]
  | .constantValue i => [.text "ConstantValue", doc i]
  | .exceptions is => [.text "Exceptions", doc is]
  | .signature i => [.text "Signature", doc i]
  | .sourceFile i => [.text "SourceFile", doc i]
  | .methodParameters ps => [.text "MethodParameters", doc ps]
  | .annotations visible items => [.text "Annotations", doc (visible, items)]
  | .parameterAnnotations visible ps => [.text "ParameterAnnotations", doc (visible, ps)]
  | .innerClasses es => [.text "InnerClasses", doc es]
  | .enclosingMethod owner method => [.text "EnclosingMethod", doc (owner, method)]
  | .nestHost i => [.text "NestHost", doc i]
  | .nestMembers is => [.text "NestMembers", doc is]
  | .lineNumberTable es => [.text "LineNumberTable", doc es]
  | .localVariableTable es => [.text "LocalVariableTable", doc es]
  | .woven stamp => [.text "Woven", doc (stamp.injector, stamp.modified)]
  | .raw bytes => [.text "Raw", .blob bytes]

/-- The description of the code of a method. -/
def CodeAttribute.describe : CodeAttribute → Doc
  | ⟨maxStack, maxLocals, code, exceptions, attributes⟩ => .record [
      ("max_stack", doc maxStack), ("max_locals", doc maxLocals), ("code", .blob code),
      ("exceptions", doc exceptions), ("attributes", .list (describeAttributes attributes))]

/-- The descriptions of attributes. -/
def describeAttributes : List Attribute → List Doc
  | [] => []
  | a :: as => a.describe :: describeAttributes as

end

instance : Describe Attribute := ⟨Attribute.describe⟩

instance : Describe CodeAttribute := ⟨CodeAttribute.describe⟩

/-- The description of a member of a class with that pool. -/
def Member.describe (p : Pool) (m : Member) : Doc :=
  .record [("access", doc m.access), ("name", doc (p.utf8 m.name).toOption),
    ("descriptor", doc (p.utf8 m.descriptor).toOption), ("indices", doc (m.name, m.descriptor)),
    ("signature", doc (m.signature p)), ("attributes", doc m.attributes)]

instance : Describe ClassFile where
  doc c := .record [("version", doc (c.majorVersion, c.minorVersion)), ("access", doc c.access),
    ("this", doc c.name), ("super", doc c.superName), ("interfaces", doc c.interfaceNames),
    ("signature", doc c.signature),
    ("indices", .list [doc c.thisClass, doc c.superClass, doc c.interfaces]), ("pool", doc c.pool),
    ("fields", .list (c.fields.map (Member.describe c.pool))),
    ("methods", .list (c.methods.map (Member.describe c.pool))),
    ("attributes", doc c.attributes)]

end Weft
