import Weft.Signature.GenericType

/-!
# Resolving the bounds of type variables

A signature as it is read leaves variables without bounds. Resolution gives each variable the
bounds of its declaration, those of the innermost scope first, and expands the variables inside
them. A variable met again while its own bounds are being expanded, or declared nowhere, has the
unknown bound; a wildcard bound that contains a wildcard of its own is unknown too.
-/

namespace Weft

mutual

/-- The type contains a wildcard, outside the bounds of its variables. -/
def GenericType.containsWildcard : GenericType → Bool
  | .parameterized _ arguments => anyWildcard arguments
  | .array _ component => component.containsWildcard
  | _ => false

/-- Some argument is a wildcard or an exact type that contains one. -/
def anyWildcard : List TypeArgument → Bool
  | [] => false
  | .exact type :: rest => type.containsWildcard || anyWildcard rest
  | _ :: _ => true

end

mutual

/-- The type with the bounds `bounds name` for each variable `name`. -/
def GenericType.withBounds (bounds : String → List GenericType) : GenericType → GenericType
  | .typeVariable name _ => .typeVariable name (bounds name)
  | .parameterized raw arguments => .parameterized raw (argumentsWithBounds bounds arguments)
  | .array n component => .array n (component.withBounds bounds)
  | type => type

/-- The argument with the bounds `bounds name` for each variable `name`. -/
def TypeArgument.withBounds (bounds : String → List GenericType) : TypeArgument → TypeArgument
  | .any => .any
  | .exact type => .exact (type.withBounds bounds)
  | .upper bound =>
    if bound.containsWildcard then .upper .unknown else .upper (bound.withBounds bounds)
  | .lower bound =>
    if bound.containsWildcard then .lower .unknown else .lower (bound.withBounds bounds)

/-- The arguments with the bounds `bounds name` for each variable `name`. -/
def argumentsWithBounds (bounds : String → List GenericType) : List TypeArgument → List TypeArgument
  | [] => []
  | a :: as => a.withBounds bounds :: argumentsWithBounds bounds as

end

/-- The type parameters that a signature can refer to. -/
structure TypeScope where
  /-- Parameters of the enclosing declaration, already resolved. -/
  outer : List TypeParameter := []
  /-- Parameters of the declaration itself, as they were read. -/
  inner : List TypeParameter := []

namespace TypeScope

/-- The bounds of the variable `name` while those of `active` are being expanded. Each expansion
adds an inner parameter to `active`, so one more level than there are parameters is enough. -/
def bounds (scope : TypeScope) : Nat → List String → String → List GenericType
  | 0, _, _ => [.unknown]
  | levels + 1, active, name =>
    if active.contains name then [.unknown]
    else
      match scope.inner.find? (·.name == name) with
      | some p => p.bounds.map (·.withBounds (scope.bounds levels (name :: active)))
      | none =>
        match scope.outer.find? (·.name == name) with
        | some p => p.bounds
        | none => [.unknown]

/-- Resolves a type while the bounds of `active` are being expanded. -/
def resolveIn (scope : TypeScope) (active : List String) (type : GenericType) : GenericType :=
  type.withBounds (scope.bounds (scope.inner.length + 1) active)

/-- Resolves a type. -/
def resolve (scope : TypeScope) (type : GenericType) : GenericType :=
  scope.resolveIn [] type

/-- The inner parameters with their bounds resolved. -/
def parameters (scope : TypeScope) : List TypeParameter :=
  scope.inner.map fun p => ⟨p.name, p.bounds.map (scope.resolveIn [p.name])⟩

end TypeScope

end Weft
