import Weft.Doc.Describe
import Weft.Call.Value
import Weft.Signature.GenericType

/-!
# Descriptions of values and types

A value is a list of its kind and content. A type is described by its descriptor; its properties,
and those of a generic type, are records.
-/

namespace Weft

instance : Describe ClassName := ⟨fun name => .text name.internal⟩

instance : Describe JType := ⟨fun t => .text t.descriptor⟩

instance : Describe MethodDescriptor := ⟨fun d => .text d.descriptor⟩

/-- A list of a kind and what belongs to it. -/
def Doc.tagged (kind : String) (content : List Doc) : Doc :=
  .list (.text kind :: content)

mutual

/-- The description of a value. -/
def Value.describe : Value → Doc
  | .void => .tagged "void" []
  | .null => .tagged "null" []
  | .bool b => .tagged "bool" [doc b]
  | .char unit => .tagged "char" [doc unit]
  | .byte n => .tagged "byte" [doc n]
  | .short n => .tagged "short" [doc n]
  | .int n => .tagged "int" [doc n]
  | .long n => .tagged "long" [doc n]
  | .float bits => .tagged "float" [.bits32 bits]
  | .double bits => .tagged "double" [.bits64 bits]
  | .str s => .tagged "str" [doc s]
  | .ref o => .tagged "ref" [.num o.number.toInt]
  | .array items => .tagged "array" [.list (Value.describeAll items)]

/-- The descriptions of the values of a list. -/
def Value.describeAll : List Value → List Doc
  | [] => []
  | v :: vs => v.describe :: Value.describeAll vs

end

instance : Describe Value := ⟨Value.describe⟩

instance : Describe Thrown := ⟨fun t => .list [doc t.exception, doc t.message]⟩

instance : Describe Outcome where
  doc
    | .returned v => .record [("returned", doc v)]
    | .raised t => .record [("raised", doc t), ("display", doc (toString t))]

/-- The properties of a type. -/
def JType.properties (t : JType) : Doc :=
  .record [
    ("descriptor", doc t), ("java", doc t.sourceName), ("display", doc (toString t)),
    ("operand", doc t.classOperand?), ("code", doc (t.code?.map Char.toString)),
    ("keyword", doc t.keyword?), ("void", doc t.isVoid), ("primitive", doc t.isPrimitive),
    ("reference", doc t.isReference), ("slots", doc t.slots), ("boxed", doc t.boxed?),
    ("unbox", doc t.unboxMethod?), ("default", doc (Value.ofType t)),
    ("shape", match t with
      | .array n element => doc (n, element)
      | .reference name => doc name
      | _ => .null)]

mutual

/-- The description of a generic type. -/
def GenericType.describe : GenericType → Doc
  | .plain t => .record [("plain", doc t)]
  | .parameterized raw arguments =>
    .record [("class", doc raw), ("args", .list (describeArguments arguments))]
  | .typeVariable name bounds =>
    .record [("var", doc name), ("bounds", .list (describeTypes bounds))]
  | .array n component => .record [("array", doc n), ("of", component.describe)]
  | .unknown => .text "unknown"

/-- The description of a type argument. -/
def TypeArgument.describe : TypeArgument → Doc
  | .any => .text "*"
  | .upper bound => .record [("extends", bound.describe)]
  | .lower bound => .record [("super", bound.describe)]
  | .exact type => .record [("exact", type.describe)]

/-- The descriptions of the types of a list. -/
def describeTypes : List GenericType → List Doc
  | [] => []
  | t :: ts => t.describe :: describeTypes ts

/-- The descriptions of the arguments of a list. -/
def describeArguments : List TypeArgument → List Doc
  | [] => []
  | a :: as => a.describe :: describeArguments as

end

instance : Describe GenericType := ⟨GenericType.describe⟩

/-- The properties of a generic type. -/
def GenericType.properties (t : GenericType) : Doc :=
  .record [("type", doc t), ("erasure", doc t.erasure), ("generic", doc t.isGeneric),
    ("unknown", doc t.hasUnknown)]

instance : Describe TypeParameter :=
  ⟨fun p => .record [("name", doc p.name), ("bounds", doc p.bounds)]⟩

instance : Describe ClassSignature where
  doc s := .record [("parameters", doc s.typeParameters), ("superclass", s.superclass.properties),
    ("interfaces", .list (s.interfaces.map GenericType.properties))]

instance : Describe MethodSignature where
  doc s := .record [("type_parameters", doc s.typeParameters),
    ("parameters", .list (s.parameters.map GenericType.properties)),
    ("return", s.returnType.properties),
    ("throws", .list (s.throws.map GenericType.properties))]

/-- The spellings of a class name. -/
def ClassName.spellings (name : ClassName) : List (String × Doc) :=
  [("internal", doc name.internal), ("binary", doc name.binary),
    ("descriptor", doc name.descriptor), ("simple", doc name.simple),
    ("package", doc name.package), ("display", doc (toString name))]

end Weft
