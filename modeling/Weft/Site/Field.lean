import Weft.Site.Basic

/-!
# Fields as sites
-/

namespace Weft

/-- A field as a site. -/
structure FieldSite where
  owner : ClassSite
  index : UInt16
  member : Member
  name : String
  type : JType
  /-- The type that the signature gives. -/
  generic : GenericType
  deriving Inhabited

namespace FieldSite

/-- The access flags of the field. -/
def access (f : FieldSite) : Access := f.member.access

/-- The field belongs to the class and not to its instances. -/
def isStatic (f : FieldSite) : Bool := f.access.isStatic

/-- The field does not appear in source text. -/
def isSynthetic (f : FieldSite) : Bool := f.access.isSynthetic

/-- What identifies the field. -/
def key (f : FieldSite) : SiteKey := .ofField f.owner.artifact f.index

/-- The field as messages name it. -/
def display (f : FieldSite) : String := toString f.owner.name ++ "." ++ f.name

/-- The annotations of the field. -/
def annotations (f : FieldSite) : List AnnotationSite :=
  AnnotationSite.collect f.owner.pool f.member.attributes

/-- The constant that the field holds from the start. -/
def constant? (f : FieldSite) : Option Literal :=
  f.member.attributes.findSome? fun a => match a.body with
    | .constantValue index => (f.owner.pool.literal index).toOption
    | _ => none

/-- The field as listings show it. -/
def text (f : FieldSite) : String :=
  Text.labelled "FieldSite" [("owner", Text.quote f.owner.name.internal),
    ("name", Text.quote f.name), ("descriptor", Text.quote f.type.descriptor)]

/-- The two fields compare equal. -/
def beq (a b : FieldSite) : Bool :=
  let constants := match a.constant?, b.constant? with
    | some x, some y => x.same y
    | none, none => true
    | _, _ => false
  a.name == b.name && a.access == b.access && a.type == b.type && a.generic == b.generic &&
    constants && a.annotations == b.annotations

instance : BEq FieldSite := ⟨beq⟩

end FieldSite

namespace ClassSite

/-- The site of a field, in the scope of the type parameters of the class. -/
def fieldSite (s : ClassSite) (scope : List TypeParameter) (index : Nat) (m : Member)
    (name : String) (type : JType) : FieldSite :=
  let generic := match m.signature s.pool with
    | .ok none => .plain type
    | .ok (some text) => (GenericType.ofText scope text).toOption.getD .unknown
    | .error _ => .unknown
  ⟨s, UInt16.ofNat index, m, name, type, generic⟩

/-- The fields of the class, in order. -/
def fields (s : ClassSite) : List FieldSite :=
  let scope := s.generics.typeParameters
  (s.classFile.fields.zip s.fieldTypes).zipIdx.map fun ((m, name, type), i) =>
    s.fieldSite scope i m name type

/-- The first field of that name. -/
def field? (s : ClassSite) (name : String) : Option FieldSite :=
  s.fields.find? (·.name == name)

end ClassSite

end Weft
