import Weft.Injection.Basic
import Weft.Weave.Names

/-!
# Plans

A plan lists what weaving will do to one class: the fields and methods that it gets, the methods
whose calls are intercepted, and the helper classes that woven code needs. Every callback that the
plan relies on has a token already.
-/

namespace Weft.Weave

/-- What woven images carry beside what was asked for. -/
structure Options where
  /-- Helper classes join the nest of their owner. -/
  nestAttributes : Bool := true
  /-- The injector whose mark the image gets. -/
  stamp : Option String := none
  deriving DecidableEq, Inhabited

/-- What a helper class is for. -/
inductive HelperKind where
  /-- Calls the kept body of an intercepted method. -/
  | call (method : String) (descriptor : MethodDescriptor) (isStatic : Bool)
  /-- Gives access to a field. -/
  | field (name : String) (type : JType) (isStatic isFinal : Bool)
  /-- Calls a method. -/
  | method (name : String) (descriptor : MethodDescriptor) (isStatic : Bool)
  deriving DecidableEq, Inhabited

/-- What the helper works on is static. -/
def HelperKind.isStatic : HelperKind → Bool
  | call _ _ isStatic | field _ _ isStatic _ | method _ _ isStatic => isStatic

/-- A helper class that woven code needs. -/
structure Helper where
  name : ClassName
  kind : HelperKind
  deriving DecidableEq, Inhabited

/-- The first helper of that name works on something static. -/
def isStaticHelper (helpers : List Helper) (name : ClassName) : Bool :=
  (helpers.find? (·.name == name)).any (·.kind.isStatic)

/-- How a planned field gets its first value. -/
inductive FieldInit where
  /-- It keeps the value of its type. -/
  | default
  /-- The class file says so. -/
  | constant (value : Literal)
  /-- Each constructor stores it. -/
  | store (value : Literal)
  /-- Woven code asks the callback whose token the holder holds. -/
  | callback (token holder : String)
  deriving Inhabited

/-- Woven code gives the field its value. -/
def FieldInit.needsCode : FieldInit → Bool
  | store _ | callback .. => true
  | _ => false

/-- A field that the class gets. -/
structure PlannedField where
  access : Access
  name : String
  type : JType
  init : FieldInit
  deriving Inhabited

/-- The field belongs to the class and not to its instances. -/
def PlannedField.isStatic (f : PlannedField) : Bool := f.access.isStatic

/-- A method that the class gets. Its accessors are helpers by the names that its body uses. -/
structure PlannedMethod where
  access : Access
  name : String
  descriptor : MethodDescriptor
  throws : List ClassName
  token : String
  fields : List (String × ClassName)
  methods : List (String × ClassName)
  deriving Inhabited

/-- The method belongs to the class and not to its instances. -/
def PlannedMethod.isStatic (m : PlannedMethod) : Bool := m.access.isStatic

/-- A method whose calls are intercepted. -/
structure PlannedIntercept where
  site : MethodSite
  /-- The number of callbacks around a call. -/
  length : Nat
  token : String
  /-- The name under which the body of the method is kept. -/
  keptAs : String
  /-- The helper that calls the kept body. -/
  thunk : ClassName
  deriving Inhabited

/-- What weaving does to a class. -/
structure Plan where
  site : ClassSite
  options : Options
  fields : List PlannedField := []
  methods : List PlannedMethod := []
  intercepts : List PlannedIntercept := []
  helpers : List Helper := []
  /-- The number of injections that are woven. -/
  injections : Nat := 0
  deriving Inhabited

namespace Plan

/-- The plan that changes nothing. -/
def empty (site : ClassSite) (options : Options) : Plan := { site, options }

/-- The plan adds and intercepts nothing. -/
def isEmpty (p : Plan) : Bool := p.fields.isEmpty && p.methods.isEmpty && p.intercepts.isEmpty

end Plan

/-- The least major version of images that have nests. -/
def nestVersion : UInt16 := 55

/-- Helpers of the class can join its nest, since it is the host. -/
def hostsNest (options : Options) (c : ClassFile) : Bool :=
  options.nestAttributes && nestVersion ≤ c.majorVersion && !c.hasNestHost

end Weft.Weave
