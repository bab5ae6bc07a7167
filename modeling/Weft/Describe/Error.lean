import Weft.Doc.Describe
import Weft.Error

/-!
# Descriptions of errors and of results

An error is a record of its family and its text; a result is a record of its value or its error.
-/

namespace Weft

namespace Error

/-- The family of the error. -/
def family : Error → String
  | malformed _ => "MalformedArtifact"
  | outOfBounds => "OutOfBounds"
  | notSupported _ => "NotSupported"
  | incompatible _ => "IncompatibleConfiguration"
  | unresolved _ => "UnresolvedInjectionReference"
  | loadFailure _ => "LoadFailure"
  | file _ => "FileError"
  | recursionLimit _ => "RecursionLimit"

/-- What follows a place: the path of a source file, a line and what they announce. -/
def afterPlace (cs : List Char) : List Char :=
  let (path, rest) := cs.span (· != ':')
  let (line, rest) := (rest.drop 1).span Char.isDigit
  match ".rs".toList.isSuffixOf path && !line.isEmpty, rest with
  | true, ':' :: ' ' :: text => text
  | _, _ => cs

/-- The text of an error without the places where the malformed causes in it were noticed. -/
def withoutPlaces (text : String) : String :=
  match text.splitOn "Malformed - " with
  | [] => text
  | first :: causes =>
    "Malformed - ".intercalate (first :: causes.map fun c => String.ofList (afterPlace c.toList))

/-- What the error says beside its family. -/
def detail? : Error → Option String
  | malformed cause => some cause.message
  | outOfBounds => none
  | notSupported cause => some cause.message
  | incompatible cause => some cause.message
  | unresolved cause => some cause.message
  | loadFailure cause => some (withoutPlaces cause.message)
  | file fault => some fault.name
  | recursionLimit limit => some (toString limit)

end Error

instance : Describe Error where
  doc e := .record (("error", doc e.family) :: match e.detail? with
    | some text => [("message", doc text)]
    | none => [])

instance {α : Type} [Describe α] : Describe (Except Error α) where
  doc
    | .ok a => .record [("ok", doc a)]
    | .error e => doc e

/-- An error of a family in words of the caller, where the family has words. -/
def Error.ofFamily? (family text : String) (limit : Nat) : Option Error :=
  [.malformed (.other text), .outOfBounds, .notSupported (.other text), .incompatible (.other text),
    .unresolved (.other text), .loadFailure (.other text), .recursionLimit limit].find?
      (·.family == family)

end Weft
