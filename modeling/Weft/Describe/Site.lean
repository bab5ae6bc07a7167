import Weft.Describe.ClassFile
import Weft.Site.Method

/-!
# Descriptions of sites

A site is a record of its properties.
-/

namespace Weft

mutual

/-- The description of an annotation. -/
def AnnotationSite.describe : AnnotationSite → Doc
  | ⟨typeName, values, visible⟩ =>
    let named := AnnotationValue.describeNamed values
    .record [("type", doc typeName), ("visible", doc visible),
      ("values", .list (named.map fun (name, v) => .list [doc name, v])),
      ("value", ((named.find? (·.1 == "value")).map (·.2)).getD .null)]

/-- The description of the value of an annotation element. -/
def AnnotationValue.describe : AnnotationValue → Doc
  | .bool v => .tagged "bool" [doc v]
  | .byte v => .tagged "byte" [doc v]
  | .char v => .tagged "char" [doc v]
  | .short v => .tagged "short" [doc v]
  | .int v => .tagged "int" [doc v]
  | .long v => .tagged "long" [doc v]
  | .float bits => .tagged "float" [.bits32 bits]
  | .double bits => .tagged "double" [.bits64 bits]
  | .string s => .tagged "string" [doc s]
  | .enum type constant => .tagged "enum" [doc type, doc constant]
  | .classRef type => .tagged "class" [doc type]
  | .nested site => .tagged "annotation" [site.describe]
  | .array items => .tagged "array" [.list (AnnotationValue.describeAll items)]
  | .unknown => .tagged "unknown" []

/-- The descriptions of named values. -/
def AnnotationValue.describeNamed : List (String × AnnotationValue) → List (String × Doc)
  | [] => []
  | (name, v) :: rest => (name, v.describe) :: AnnotationValue.describeNamed rest

/-- The descriptions of values. -/
def AnnotationValue.describeAll : List AnnotationValue → List Doc
  | [] => []
  | v :: rest => v.describe :: AnnotationValue.describeAll rest

end

instance : Describe AnnotationSite := ⟨AnnotationSite.describe⟩

instance : Describe ArtifactId := ⟨fun id => doc id.hex⟩

instance : Describe SiteKey where
  doc
    | .ofClass artifact => .tagged "class" [doc artifact]
    | .ofField artifact index => .tagged "field" [doc artifact, doc index]
    | .ofMethod artifact index => .tagged "method" [doc artifact, doc index]

instance : Describe Woven := ⟨fun w => .list [doc w.injector, doc w.modified]⟩

instance : Describe FieldSite where
  doc f := .record [("name", doc f.name), ("display", doc f.display), ("index", doc f.index),
    ("access", doc f.access), ("target", doc Target.ofField.word), ("static", doc f.isStatic),
    ("synthetic", doc f.isSynthetic), ("descriptor", doc f.type), ("type", f.generic.properties),
    ("constant", doc f.constant?), ("annotations", doc f.annotations), ("debug", doc f.text)]

instance : Describe ParameterSite where
  doc p := .record [("index", doc p.index), ("type", p.generic.properties),
    ("descriptor", doc p.type), ("name", doc p.name), ("varargs", doc p.isVarargs),
    ("annotations", doc p.annotations)]

instance : Describe MethodSite where
  doc m := .record [("name", doc m.name), ("display", doc m.display), ("index", doc m.index),
    ("access", doc m.access), ("target", doc Target.ofMethod.word), ("static", doc m.isStatic),
    ("synthetic", doc m.isSynthetic), ("descriptor", doc m.descriptor),
    ("return", m.genericReturn.properties), ("erased_return", doc m.descriptor.ret),
    ("parameters", doc m.parameters), ("throws", doc m.throws),
    ("type_parameters", doc m.typeParameters), ("constructor", doc m.isConstructor),
    ("static_initializer", doc m.isStaticInitializer), ("code", doc m.hasCode),
    ("annotations", doc m.annotations), ("debug", doc m.text)]

instance : Describe ClassSite where
  doc s :=
    let package := s.name.package
    let generics := s.generics
    .record [("name", doc s.name), ("display", doc s.display), ("artifact", doc s.artifact),
      ("key", doc s.key), ("major", doc s.majorVersion), ("kind", doc s.kind.word),
      ("interface", doc s.isInterface), ("access", doc s.access),
      ("target", doc Target.ofClass.word), ("synthetic", doc s.isSynthetic),
      ("package", doc (package, (ClassName.mk package).binary)),
      ("unnamed", doc package.isEmpty), ("super", doc s.superName),
      ("superclass", doc (generics.superclass.map GenericType.properties)),
      ("interface_names", doc s.interfaceNames), ("interfaces", doc generics.interfaces),
      ("type_parameters", doc generics.typeParameters), ("enclosing", doc s.enclosing?),
      ("woven", doc s.woven?), ("annotations", doc s.annotations), ("fields", doc s.fields),
      ("methods", doc s.methods), ("constructors", doc s.constructors.length),
      ("debug", doc s.text)]

end Weft
