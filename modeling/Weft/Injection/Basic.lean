import Weft.Call.Accessor
import Weft.Injection.Kind
import Weft.Site.Method

/-!
# Injections

An injection is what a visitor asks for at a site: a field or a method to be added to a class, or a
callback around the calls of a method. Callbacks act on a world `σ`.
-/

namespace Weft

/-- Decides whether a call is ignored. -/
abbrev IgnoreCallback (σ : Type) := Value → List Value → MethodSite → Action σ Bool

/-- Changes the arguments of a call. -/
abbrev PreCallback (σ : Type) := Value → List Value → MethodSite → Action σ (List Value)

/-- Changes the value of a call. -/
abbrev PostCallback (σ : Type) := Value → List Value → Value → MethodSite → Action σ Value

/-- Runs in place of a call, which it can make. -/
abbrev ReplaceCallback (σ : Type) := Value → List Value → Invoker σ → MethodSite → Action σ Value

/-- Runs after a call raised; it can make the call again, or ask for the value it had. -/
abbrev RecoverCallback (σ : Type) :=
  Value → List Value → Thrown → Invoker σ → MethodSite → Action σ Value

/-- Computes the first value of a field from its object. -/
abbrev Initializer (σ : Type) := Value → Action σ Value

/-- The body of an added method. -/
abbrev MethodCode (σ : Type) := Value → List Value → Accessors σ → Action σ Value

/-- The value that an added field has at first. -/
inductive InitialValue (σ : Type) where
  | none
  | constant (value : Literal)
  | computed (initializer : Initializer σ)

/-- The value as listings show it. -/
def InitialValue.text {σ : Type} : InitialValue σ → String
  | .none => "None"
  | .constant value => Text.applied "Constant" [value.text]
  | .computed _ => Text.applied "Computed" [".."]

/-- A field to be added. -/
structure FieldDeclaration (σ : Type) where
  access : Access
  name : String
  type : JType
  initial : InitialValue σ := .none

/-- The field is a constant of its class. -/
def FieldDeclaration.isConstant {σ : Type} (f : FieldDeclaration σ) : Bool :=
  f.access.isStatic && match f.initial with
    | .constant _ => true
    | _ => false

/-- A method by name and descriptor. -/
structure MethodReference where
  name : String
  descriptor : MethodDescriptor
  deriving DecidableEq, Inhabited

/-- A method to be added, with the members that its body uses. -/
structure MethodDeclaration (σ : Type) where
  access : Access
  name : String
  descriptor : MethodDescriptor
  throws : List ClassName := []
  code : MethodCode σ
  fields : List String := []
  methods : List MethodReference := []

/-- What a visitor asks for at a site. -/
inductive Injection (σ : Type) where
  | addField (field : FieldDeclaration σ)
  | addMethod (method : MethodDeclaration σ)
  | ignoreMethod (callback : IgnoreCallback σ)
  | preHook (callback : PreCallback σ)
  | postHook (callback : PostCallback σ)
  | replaceMethod (callback : ReplaceCallback σ)
  | errorRecovery (callback : RecoverCallback σ)
  | nothing (target : Target)

namespace Injection

variable {σ : Type}

/-- What the injection does. -/
def kind : Injection σ → Kind
  | addField _ => .addField
  | addMethod _ => .addMethod
  | ignoreMethod _ => .ignoreMethod
  | preHook _ => .preHook
  | postHook _ => .postHook
  | replaceMethod _ => .replaceMethod
  | errorRecovery _ => .errorRecovery
  | nothing _ => .nothing

/-- Where the injection applies. -/
def target : Injection σ → Target
  | nothing target => target
  | i => i.kind.target?.getD .ofMethod

/-- How the injection changes what it applies to. -/
def delta (i : Injection σ) : Delta := i.kind.delta

/-- The place of the injection among others at its site. -/
def rank (i : Injection σ) : Nat := i.kind.rank

/-- The injection asks for nothing. -/
def isNothing : Injection σ → Bool
  | nothing _ => true
  | _ => false

/-- The injections in the order of their ranks; those of one rank keep their order. -/
def sortByRank (injections : List (Injection σ)) : List (Injection σ) :=
  injections.mergeSort fun a b => a.rank ≤ b.rank

end Injection

end Weft
