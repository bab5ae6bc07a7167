import Weft.Signature.Descriptor
import Weft.Signature.Resolve

/-!
# Reading generic signatures

The grammar of class, method and field signatures. References nest fewer than fifty deep. Inner
classes are joined to their outer class with `$`, of a chain of argument lists the last one counts,
and arrays of plain types are plain.
-/

namespace Weft

namespace Scan

/-- References may nest one less than this deep. -/
def nestingLimit : Nat := 50

/-- The rest of a chain of inner classes, each with its arguments; `fuel` bounds their number. -/
def innerClasses (arguments : Scan (List TypeArgument)) :
    Nat → String → List TypeArgument → Scan (String × List TypeArgument)
  | 0, _, _ => throw .outOfBounds
  | fuel + 1, name, args => do
    if ← accept '.' then
      let inner ← identifier ['<', '.', ';']
      innerClasses arguments fuel (name ++ "$" ++ inner) (← arguments)
    else return (name, args)

/-- The arguments between angle brackets, or none. -/
def argumentList (argument : Scan TypeArgument) : Scan (List TypeArgument) := do
  if ← accept '<' then
    let arguments ← manyUntil '>' argument
    expect '>'
    if arguments.isEmpty then throw (.malformed .emptyArguments)
    return arguments
  else return []

/-- An argument, its types read by `reference`. -/
def argument (reference : Scan GenericType) : Scan TypeArgument := do
  match ← peek with
  | '*' =>
    let _ ← next
    return .any
  | '+' =>
    let _ ← next
    return .upper (← reference)
  | '-' =>
    let _ ← next
    return .lower (← reference)
  | _ => return .exact (← reference)

/-- A class type after its `L`. -/
def classType (reference : Scan GenericType) : Scan GenericType := do
  let arguments := argumentList (argument reference)
  let outer ← identifier ['<', '.', ';']
  let first ← arguments
  let (name, args) ← innerClasses arguments (← get).fuel outer first
  expect ';'
  let raw := ClassName.ofText name
  if args.isEmpty then return .plain (.reference raw)
  else return .parameterized raw args

/-- A type other than `void`, its references read by `reference`. -/
def javaType (reference : Scan GenericType) : Scan GenericType := do
  let code ← peek
  if code = 'L' || code = 'T' || code = '[' then reference
  else
    let _ ← next
    match Primitive.ofCode? code with
    | some p => return .plain (.primitive p)
    | none => throw (.malformed (.signatureCharacter code))

/-- One more dimension over a component. -/
def arrayOver : GenericType → GenericType
  | .plain type => .plain (type.arrayOf 1)
  | .array n component => .array (JType.addDimensions n 1) component
  | component => .array 1 component

/-- A reference type, with that many further levels of nesting. -/
def referenceWithin : Nat → Scan GenericType
  | 0 => throw (.recursionLimit nestingLimit)
  | levels + 1 => do
    match ← next with
    | 'L' => classType (referenceWithin levels)
    | 'T' =>
      let name ← identifier [';']
      expect ';'
      return .typeVariable name []
    | '[' => return arrayOver (← javaType (referenceWithin levels))
    | code => throw (.malformed (.referenceCharacter code))

/-- A reference type. -/
def referenceType : Scan GenericType :=
  referenceWithin (nestingLimit - 1)

/-- A declared type parameter. -/
def typeParameter : Scan TypeParameter := do
  let name ← identifier [':']
  expect ':'
  let code ← peek
  let classBound ← if code = ':' || code = '>' then pure [] else do pure [← referenceType]
  let bounds ← furtherBounds (← get).fuel classBound
  return ⟨name, if bounds.isEmpty then [.plain .object] else bounds⟩
where
  /-- The bounds after colons, in front of those of `acc`, which is in reverse. -/
  furtherBounds : Nat → List GenericType → Scan (List GenericType)
    | 0, _ => throw .outOfBounds
    | fuel + 1, acc => do
      if ← accept ':' then
        let bound ← referenceType
        furtherBounds fuel (bound :: acc)
      else return acc.reverse

/-- The type parameters between angle brackets, or none. -/
def typeParameters : Scan (List TypeParameter) := do
  if ← accept '<' then
    let parameters ← manyUntil '>' typeParameter
    expect '>'
    return parameters
  else return []

/-- A whole class signature. -/
def classSignature : Scan ClassSignature := do
  let declared ← typeParameters
  let superclass ← referenceType
  let interfaces ← manyToEnd referenceType
  let scope : TypeScope := { inner := declared }
  return ⟨scope.parameters, scope.resolve superclass, interfaces.map scope.resolve⟩

/-- A whole method signature inside a class with the parameters `outer`. -/
def methodSignature (outer : List TypeParameter) : Scan MethodSignature := do
  let declared ← typeParameters
  expect '('
  let parameters ← manyUntil ')' (javaType referenceType)
  expect ')'
  let returnType ← if ← accept 'V' then pure (.plain .void) else javaType referenceType
  let throws ← manyToEnd do
    expect '^'
    referenceType
  let scope : TypeScope := ⟨outer, declared⟩
  return ⟨scope.parameters, parameters.map scope.resolve, scope.resolve returnType,
    throws.map scope.resolve⟩

/-- A whole field signature inside a class with the parameters `outer`. -/
def fieldSignature (outer : List TypeParameter) : Scan GenericType := do
  let type ← referenceType
  finish
  return TypeScope.resolve ⟨outer, []⟩ type

end Scan

/-- The class signature that a text spells. -/
def ClassSignature.ofText (text : String) : Except Error ClassSignature :=
  Scan.classSignature.parse text

/-- The method signature that a text spells, inside a class with the parameters `outer`. -/
def MethodSignature.ofText (outer : List TypeParameter) (text : String) :
    Except Error MethodSignature :=
  (Scan.methodSignature outer).parse text

/-- The type that a field signature spells, inside a class with the parameters `outer`. -/
def GenericType.ofText (outer : List TypeParameter) (text : String) : Except Error GenericType :=
  (Scan.fieldSignature outer).parse text

end Weft
