import Weft.Site.Field

/-!
# Methods as sites

The parameters of a method are those of its descriptor. Signatures, parameter names and parameter
annotations may come in tables of another length: a shorter table belongs to the last parameters,
since the ones that a compiler adds come first, and of a longer table the first entries count.
-/

namespace Weft

/-- The entries of a table for each of `n` parameters: those of the last ones, or the first `n`. -/
def alignToLast {α : Type} (n : Nat) (entries : List α) : List (Option α) :=
  List.replicate (n - entries.length) none ++ (entries.take n).map some

theorem length_alignToLast {α : Type} (n : Nat) (entries : List α) :
    (alignToLast n entries).length = n := by
  simp [alignToLast]

/-- A parameter of a method. -/
structure ParameterSite where
  index : Nat
  /-- The type that the signature gives. -/
  generic : GenericType
  type : JType
  name : Option String
  isVarargs : Bool
  annotations : List AnnotationSite
  deriving BEq, Inhabited

/-- A method as a site. -/
structure MethodSite where
  owner : ClassSite
  index : UInt16
  member : Member
  name : String
  descriptor : MethodDescriptor
  typeParameters : List TypeParameter
  /-- The type of each parameter that the signature gives. -/
  genericParameters : List GenericType
  genericReturn : GenericType
  throws : List GenericType
  deriving Inhabited

namespace MethodSite

/-- The access flags of the method. -/
def access (m : MethodSite) : Access := m.member.access

/-- The method belongs to the class and not to its instances. -/
def isStatic (m : MethodSite) : Bool := m.access.isStatic

/-- The method does not appear in source text. -/
def isSynthetic (m : MethodSite) : Bool := m.access.isSynthetic || m.access.has .accBridge

/-- The method makes instances of its class. -/
def isConstructor (m : MethodSite) : Bool := m.name == "<init>"

/-- The method runs when its class is initialized. -/
def isStaticInitializer (m : MethodSite) : Bool := m.name == "<clinit>"

/-- The method has bytecode. -/
def hasCode (m : MethodSite) : Bool := m.member.code?.isSome

/-- What identifies the method. -/
def key (m : MethodSite) : SiteKey := .ofMethod m.owner.artifact m.index

/-- The method as messages name it. -/
def display (m : MethodSite) : String :=
  toString m.owner.name ++ "." ++ m.name ++ toString m.descriptor

/-- The annotations of the method. -/
def annotations (m : MethodSite) : List AnnotationSite :=
  AnnotationSite.collect m.owner.pool m.member.attributes

/-- The method as listings show it. -/
def text (m : MethodSite) : String :=
  Text.labelled "MethodSite" [("owner", Text.quote m.owner.name.internal),
    ("name", Text.quote m.name), ("descriptor", Text.quote m.descriptor.descriptor)]

/-! ## Parameters -/

/-- The name of the variable that a slot holds at the start of the code. -/
def nameAtEntry? (p : Pool) (code : CodeAttribute) (slot : UInt16) : Option String :=
  code.attributes.findSome? fun a => match a.body with
    | .localVariableTable entries =>
      (entries.find? fun v => v.startPc == 0 && v.index == slot).bind (p.utf8? ·.name)
    | _ => none

/-- The names of the variables that hold parameters from a slot on. -/
def namesAtEntry (p : Pool) (code : CodeAttribute) : List JType → UInt16 → List (Option String)
  | [], _ => []
  | t :: ts, slot => nameAtEntry? p code slot :: namesAtEntry p code ts (slot + t.slots)

/-- The names of the parameters: those that the method declares, or those of its variables. -/
def parameterNames (m : MethodSite) : List (Option String) :=
  let n := m.descriptor.params.length
  let declared? := m.member.attributes.findSome? fun a => match a.body with
    | .methodParameters entries => some entries
    | _ => none
  match declared?, m.member.code? with
  | some entries, _ =>
    (alignToLast n entries).map (·.bind fun e =>
      if e.name = 0 then none else m.owner.pool.utf8? e.name)
  | none, some code =>
    namesAtEntry m.owner.pool code m.descriptor.params (if m.isStatic then 0 else 1)
  | none, none => List.replicate n none

/-- The annotations of each parameter in the tables of one visibility, table by table. -/
def annotationTables (m : MethodSite) (wanted : Bool) :
    List (List (Option (List AnnotationSite))) :=
  m.member.attributes.filterMap fun a => match a.body with
    | .parameterAnnotations visible parameters =>
      if visible == wanted then
        some (alignToLast m.descriptor.params.length
          (parameters.map (·.map (AnnotationData.resolve m.owner.pool visible))))
      else none
    | _ => none

/-- The annotations of each parameter, the visible ones first. -/
def parameterAnnotations (m : MethodSite) : List (List AnnotationSite) :=
  let tables := m.annotationTables true ++ m.annotationTables false
  tables.foldl (fun lists table => lists.zipWith (fun l t => l ++ t.getD []) table)
    (List.replicate m.descriptor.params.length [])

/-- The parameters of the method. -/
def parameters (m : MethodSite) : List ParameterSite :=
  let n := m.descriptor.params.length
  let varargs := m.access.has .accVarargs
  let types := m.genericParameters.zip m.descriptor.params
  let marks := m.parameterNames.zip m.parameterAnnotations
  (types.zip marks).zipIdx.map fun (((generic, type), name, annotations), i) =>
    ⟨i, generic, type, name, varargs && i + 1 == n, annotations⟩

/-- The two methods compare equal. -/
def beq (a b : MethodSite) : Bool :=
  a.name == b.name && a.access == b.access && a.descriptor == b.descriptor &&
    a.genericReturn == b.genericReturn && a.parameters == b.parameters && a.throws == b.throws &&
    a.typeParameters == b.typeParameters && a.annotations == b.annotations

instance : BEq MethodSite := ⟨beq⟩

end MethodSite

namespace ClassSite

/-- The exceptions that a method declares. -/
def declaredExceptions (p : Pool) (m : Member) : List GenericType :=
  let indices? := m.attributes.findSome? fun a => match a.body with
    | .exceptions indices => some indices
    | _ => none
  (indices?.getD []).map fun i => ((p.className? i).map (.plain ∘ .reference)).getD .unknown

/-- The site of a method, in the scope of the type parameters of the class. -/
def methodSite (s : ClassSite) (scope : List TypeParameter) (index : Nat) (m : Member)
    (name : String) (d : MethodDescriptor) : MethodSite :=
  let site (typeParameters : List TypeParameter) (parameters : List GenericType)
      (ret : GenericType) (throws : List GenericType) : MethodSite :=
    ⟨s, UInt16.ofNat index, m, name, d, typeParameters, parameters, ret,
      if throws.isEmpty then declaredExceptions s.pool m else throws⟩
  let unresolved := site [] (d.params.map fun _ => .unknown) .unknown []
  match m.signature s.pool with
  | .ok none => site [] (d.params.map .plain) (.plain d.ret) []
  | .ok (some text) =>
    match MethodSignature.ofText scope text with
    | .ok g =>
      let given := alignToLast d.params.length g.parameters
      let parameters := (d.params.zip given).map fun (t, g?) => g?.getD (.plain t)
      site g.typeParameters parameters g.returnType g.throws
    | .error _ => unresolved
  | .error _ => unresolved

/-- The methods of the class, in order. -/
def methods (s : ClassSite) : List MethodSite :=
  let scope := s.generics.typeParameters
  (s.classFile.methods.zip s.methodTypes).zipIdx.map fun ((m, name, d), i) =>
    s.methodSite scope i m name d

/-- The first method of that name and descriptor. -/
def method? (s : ClassSite) (name descriptor : String) : Option MethodSite :=
  s.methods.find? fun m => m.name == name && m.descriptor.descriptor == descriptor

/-- The methods of that name. -/
def methodsNamed (s : ClassSite) (name : String) : List MethodSite :=
  s.methods.filter (·.name == name)

/-- The methods that make instances. -/
def constructors (s : ClassSite) : List MethodSite := s.methodsNamed "<init>"

/-- The two classes compare equal. Two sites of one decoding do so whatever they hold. -/
def beq (a b : ClassSite) : Bool :=
  a.sharesWith b ||
    (a.name == b.name && a.access == b.access && a.superName == b.superName &&
      a.interfaceNames == b.interfaceNames && a.generics.superclass == b.generics.superclass &&
      a.generics.interfaces == b.generics.interfaces &&
      a.generics.typeParameters == b.generics.typeParameters && a.annotations == b.annotations &&
      a.fields == b.fields && a.methods == b.methods)

instance : BEq ClassSite := ⟨beq⟩

end ClassSite

end Weft
