import Weft.Call.Action

/-!
# Accessors

The body of an added method reaches the members that it declares through accessors: fields that can
be read and written, methods that can be called. An accessor of a field remembers whether the field
was written.
-/

namespace Weft

/-- Access to a field somewhere in the world. -/
structure FieldAccessor (σ : Type) where
  get : σ → Value
  set : Value → σ → σ
  /-- The field was written. -/
  isDirty : σ → Bool

/-- Access to a method. -/
abbrev MethodAccessor (σ : Type) := List Value → Action σ Value

/-- A field that is held in a cell: its value, and whether it was written. -/
structure FieldCell where
  value : Value
  isDirty : Bool := false
  deriving Inhabited

namespace FieldCell

/-- Writes the field. -/
def write (v : Value) (_ : FieldCell) : FieldCell := ⟨v, true⟩

/-- Access to a cell that is part of the world. -/
def accessor {σ : Type} (get : σ → FieldCell) (set : FieldCell → σ → σ) : FieldAccessor σ where
  get s := (get s).value
  set v s := set ((get s).write v) s
  isDirty s := (get s).isDirty

end FieldCell

/-- The list with an entry of that name in place of one that is there, in the order of names. -/
def insertByName {α : Type} (name : String) (a : α) : List (String × α) → List (String × α)
  | [] => [(name, a)]
  | (n, b) :: rest =>
    if name < n then (name, a) :: (n, b) :: rest
    else if name = n then (name, a) :: rest
    else (n, b) :: insertByName name a rest

/-- The entry of that name. -/
def findByName? {α : Type} (name : String) (entries : List (String × α)) : Option α :=
  (entries.find? (·.1 == name)).map (·.2)

/-- Accessors of fields and of methods by name, in the order of names. -/
structure Accessors (σ : Type) where
  fields : List (String × FieldAccessor σ) := []
  methods : List (String × MethodAccessor σ) := []

namespace Accessors

variable {σ : Type}

/-- The accessors and one of a field. -/
def withField (a : Accessors σ) (name : String) (f : FieldAccessor σ) : Accessors σ :=
  { a with fields := insertByName name f a.fields }

/-- The accessors and one of a method. -/
def withMethod (a : Accessors σ) (name : String) (m : MethodAccessor σ) : Accessors σ :=
  { a with methods := insertByName name m a.methods }

/-- The accessor of a field. -/
def field? (a : Accessors σ) (name : String) : Option (FieldAccessor σ) :=
  findByName? name a.fields

/-- The accessor of a method. -/
def method? (a : Accessors σ) (name : String) : Option (MethodAccessor σ) :=
  findByName? name a.methods

/-- The names of the fields that were written. -/
def dirtyFields (a : Accessors σ) (s : σ) : List String :=
  (a.fields.filter (·.2.isDirty s)).map (·.1)

/-- The accessors as listings show them. -/
def text (a : Accessors σ) : String :=
  Text.labelled "Accessors"
    [("fields", Text.bracketed (a.fields.map (Text.quote ·.1))),
      ("methods", Text.bracketed (a.methods.map (Text.quote ·.1)))]

end Accessors

end Weft
