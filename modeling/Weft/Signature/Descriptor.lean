import Weft.Signature.Scanner

/-!
# Reading descriptors

A field descriptor is one type other than `void`; a method descriptor is the parameter types in
parentheses and a return type. The printers are `JType.descriptor` and
`MethodDescriptor.descriptor`.
-/

namespace Weft

namespace Scan

/-- The type other than an array whose descriptor begins with `code`. -/
def elementType (code : Char) : Scan JType := do
  if code = 'L' then
    let name ← identifier [';']
    expect ';'
    return .ofClass name
  else if code = 'V' then throw (.malformed .voidField)
  else
    match Primitive.ofCode? code with
    | some p => return .primitive p
    | none => throw (.malformed (.descriptorCharacter code))

/-- The number of brackets from here on, one having been consumed. -/
def dimensions : Scan UInt8 := do
  let s ← get
  let brackets := (s.rest.takeWhile (· = '[')).length
  if 255 ≤ brackets then
    set (s.skip 255)
    throw (.malformed .tooManyDimensions)
  else
    set (s.skip brackets)
    return UInt8.ofNat (brackets + 1)

/-- A type other than `void`. -/
def fieldType : Scan JType := do
  let code ← next
  if code = '[' then
    let n ← dimensions
    let element ← elementType (← next)
    return element.arrayOf n
  else elementType code

/-- A type, `void` included. -/
def returnType : Scan JType := do
  if ← accept 'V' then return .void
  else fieldType

/-- A whole field descriptor. -/
def fieldDescriptor : Scan JType := do
  let type ← fieldType
  finish
  return type

/-- A whole method descriptor. -/
def methodDescriptor : Scan MethodDescriptor := do
  expect '('
  let params ← manyUntil ')' fieldType
  expect ')'
  let ret ← returnType
  finish
  return ⟨params, ret⟩

end Scan

/-- The type that a field descriptor names. -/
def JType.ofDescriptor (text : String) : Except Error JType :=
  Scan.fieldDescriptor.parse text

/-- The method type that a descriptor names. -/
def MethodDescriptor.ofText (text : String) : Except Error MethodDescriptor :=
  Scan.methodDescriptor.parse text

end Weft
