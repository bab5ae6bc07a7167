/-!
# Class names

A class name is kept in its internal form, with `/` between packages. Other spellings are views:
the binary name with dots, the descriptor `L…;`, the package and the simple name on either side of
the last slash.
-/

namespace Weft

/-- The characters between a leading `L` and a closing `;`, or all of them. -/
def stripDescriptor : List Char → List Char
  | 'L' :: rest => if rest.getLast? = some ';' then rest.dropLast else 'L' :: rest
  | cs => cs

/-- The name of a class in internal form. -/
structure ClassName where
  /-- The packages and the simple name, joined by slashes. -/
  internal : String
  deriving DecidableEq, Hashable, Repr, Inhabited

namespace ClassName

/-- The name that `text` spells: internal, with dots, or as a descriptor. -/
def ofText (text : String) : ClassName :=
  ⟨String.ofList ((stripDescriptor text.toList).map fun c => if c = '.' then '/' else c)⟩

/-- `java/lang/Object`. -/
def object : ClassName := ⟨"java/lang/Object"⟩

/-- The name with dots between packages. -/
def binary (name : ClassName) : String :=
  String.ofList (name.internal.toList.map fun c => if c = '/' then '.' else c)

instance : ToString ClassName := ⟨binary⟩

/-- The descriptor `L…;` of the class. -/
def descriptor (name : ClassName) : String :=
  "L" ++ name.internal ++ ";"

/-- The part after the last slash. -/
def simple (name : ClassName) : String :=
  String.ofList (name.internal.toList.reverse.takeWhile (· ≠ '/')).reverse

/-- The part before the last slash; empty for a class of the unnamed package. -/
def package (name : ClassName) : String :=
  String.ofList ((name.internal.toList.reverse.dropWhile (· ≠ '/')).drop 1).reverse

/-- Both classes belong to one package. -/
def samePackage (a b : ClassName) : Bool :=
  a.package == b.package

/-- The class of that suffix nested in `name`. -/
def nested (name : ClassName) (suffix : String) : ClassName :=
  ⟨name.internal ++ "$" ++ suffix⟩

instance : Ord ClassName := ⟨fun a b => compare a.internal b.internal⟩

end ClassName

end Weft
