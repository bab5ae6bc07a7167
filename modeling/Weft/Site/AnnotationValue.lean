import Weft.ClassFile.Attribute
import Weft.Signature.Descriptor

/-!
# Annotations of sites

An annotation with its constants resolved through the pool: the type, the named values, and whether
it is visible at run time. What does not resolve is `unknown`. Floating point values compare as
numbers.
-/

namespace Weft

mutual

/-- An annotation of a class, a member or a parameter. -/
structure AnnotationSite where
  typeName : ClassName
  values : List (String × AnnotationValue)
  visible : Bool

/-- The value of an annotation element. -/
inductive AnnotationValue where
  | bool (value : Bool)
  | byte (value : Int8)
  | char (unit : UInt16)
  | short (value : Int16)
  | int (value : Int32)
  | long (value : Int64)
  | float (bits : UInt32)
  | double (bits : UInt64)
  | string (text : String)
  | enum (typeName : ClassName) (constant : String)
  | classRef (type : JType)
  | nested (site : AnnotationSite)
  | array (items : List AnnotationValue)
  | unknown

end

instance : Inhabited AnnotationValue := ⟨.unknown⟩

instance : Inhabited AnnotationSite := ⟨⟨.object, [], false⟩⟩

mutual

/-- The two annotations compare equal. -/
def AnnotationSite.beq : AnnotationSite → AnnotationSite → Bool
  | ⟨s, xs, v⟩, ⟨t, ys, w⟩ => s == t && v == w && beqNamedValues xs ys

/-- The two values compare equal. -/
def AnnotationValue.beq : AnnotationValue → AnnotationValue → Bool
  | .bool a, .bool b => a == b
  | .byte a, .byte b => a == b
  | .char a, .char b => a == b
  | .short a, .short b => a == b
  | .int a, .int b => a == b
  | .long a, .long b => a == b
  | .float a, .float b => Number.Format.single.equal a.toNat b.toNat
  | .double a, .double b => Number.Format.double.equal a.toNat b.toNat
  | .string a, .string b => a == b
  | .enum s a, .enum t b => s == t && a == b
  | .classRef s, .classRef t => s == t
  | .nested a, .nested b => a.beq b
  | .array xs, .array ys => beqValues xs ys
  | .unknown, .unknown => true
  | _, _ => false

/-- The two lists hold equal values under the same names. -/
def beqNamedValues : List (String × AnnotationValue) → List (String × AnnotationValue) → Bool
  | [], [] => true
  | (m, x) :: xs, (n, y) :: ys => m == n && x.beq y && beqNamedValues xs ys
  | _, _ => false

/-- The two lists hold equal values. -/
def beqValues : List AnnotationValue → List AnnotationValue → Bool
  | [], [] => true
  | x :: xs, y :: ys => x.beq y && beqValues xs ys
  | _, _ => false

end

instance : BEq AnnotationSite := ⟨AnnotationSite.beq⟩

instance : BEq AnnotationValue := ⟨AnnotationValue.beq⟩

namespace Pool

/-- The text at an index, if there is one. -/
def utf8? (p : Pool) (index : UInt16) : Option String := (p.utf8 index).toOption

/-- The name of the class at an index, if there is one. -/
def className? (p : Pool) (index : UInt16) : Option ClassName := (p.className index).toOption

end Pool

namespace AnnotationValue

/-- The value of a constant under a tag; of the narrow types, the low bits of the number. -/
def ofConstant (tag : Char) (c : Constant) : AnnotationValue :=
  match tag, c with
  | 'Z', .integer v => bool (v != 0)
  | 'B', .integer v => byte v.toInt8
  | 'C', .integer v => char v.toUInt32.toUInt16
  | 'S', .integer v => short v.toInt16
  | 'I', .integer v => int v
  | 'J', .long v => long v
  | 'F', .float bits => float bits
  | 'D', .double bits => double bits
  | 's', .utf8 text => string text
  | _, _ => unknown

/-- The class with that descriptor, or `void`. -/
def ofClassText (descriptor : String) : AnnotationValue :=
  if descriptor = "V" then classRef .void
  else
    match JType.ofDescriptor descriptor with
    | .ok type => classRef type
    | .error _ => unknown

end AnnotationValue

mutual

/-- The value that an element stands for. -/
def ElementValue.resolve (p : Pool) (visible : Bool) : ElementValue → AnnotationValue
  | .const tag index =>
    match p.get index with
    | .ok c => .ofConstant (Char.ofNat tag.toNat) c
    | .error _ => .unknown
  | .enum typeName constName =>
    match p.utf8? typeName, p.utf8? constName with
    | some type, some constant => .enum (.ofText type) constant
    | _, _ => .unknown
  | .classInfo index => ((p.utf8? index).map AnnotationValue.ofClassText).getD .unknown
  | .nested type elements =>
    .nested ⟨((p.utf8? type).map ClassName.ofText).getD .object,
      ElementValue.resolveNamed p visible elements, visible⟩
  | .array items => .array (ElementValue.resolveAll p visible items)

/-- The values of named elements. -/
def ElementValue.resolveNamed (p : Pool) (visible : Bool) :
    List (UInt16 × ElementValue) → List (String × AnnotationValue)
  | [] => []
  | (name, value) :: rest =>
    ((p.utf8? name).getD "?", value.resolve p visible) :: ElementValue.resolveNamed p visible rest

/-- The values of elements. -/
def ElementValue.resolveAll (p : Pool) (visible : Bool) : List ElementValue → List AnnotationValue
  | [] => []
  | value :: rest => value.resolve p visible :: ElementValue.resolveAll p visible rest

end

/-- The annotation that an image holds. -/
def AnnotationData.resolve (p : Pool) (visible : Bool) (a : AnnotationData) : AnnotationSite :=
  ⟨((p.utf8? a.type).map ClassName.ofText).getD .object,
    ElementValue.resolveNamed p visible a.elements, visible⟩

namespace AnnotationSite

/-- The value of the element of that name. -/
def value? (a : AnnotationSite) (name : String) : Option AnnotationValue :=
  (a.values.find? (·.1 == name)).map (·.2)

/-- The annotations among attributes, the visible ones first. -/
def collect (p : Pool) (attributes : List Attribute) : List AnnotationSite :=
  [true, false].flatMap fun wanted => attributes.flatMap fun a => match a.body with
    | .annotations visible items =>
      if visible == wanted then items.map (AnnotationData.resolve p visible) else []
    | _ => []

end AnnotationSite

end Weft
