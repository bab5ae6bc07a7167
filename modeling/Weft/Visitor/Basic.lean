import Weft.Injection.Basic
import Weft.Site.Any

/-!
# Visitors

A visitor is shown sites and answers with what it wants injected there, or with nothing. It is shown
only sites of the targets that it handles. A set of visitors has an identity that changes with each
visitor that is added.
-/

namespace Weft

/-- A visitor that acts on the world `σ` while it is shown sites. -/
structure Visitor (σ : Type) where
  name : String
  /-- The kinds of site that the visitor is shown. -/
  handles : Target → Bool
  visit : Site → StateM σ (Option (Injection σ))

namespace Visitor

variable {σ : Type}

/-- The targets that the visitor handles, a bit for each. -/
def capabilities (v : Visitor σ) : UInt8 :=
  (if v.handles .ofClass then 1 else 0) ||| (if v.handles .ofField then 2 else 0) |||
    (if v.handles .ofMethod then 4 else 0)

/-- The visitor as listings show it. -/
def text (v : Visitor σ) : String :=
  let words := (if v.handles .ofClass then ["CLASS"] else []) ++
    (if v.handles .ofField then ["FIELD"] else []) ++
    (if v.handles .ofMethod then ["METHOD"] else [])
  let shown := if words.isEmpty then "0x0" else " | ".intercalate words
  Text.labelled "FnVisitor" [("name", Text.quote v.name),
    ("capabilities", Text.applied "Capabilities" [shown])]

end Visitor

/-- What identifies a set of visitors at a time. -/
structure VisitorSetId where
  /-- Tells the set from others. -/
  number : Nat
  /-- The number of visitors that it has got. -/
  revision : Nat
  deriving DecidableEq, Hashable, Inhabited

/-- A set of visitors, in the order in which they are shown sites. -/
structure VisitorSet (σ : Type) where
  number : Nat := 0
  visitors : List (Visitor σ) := []

namespace VisitorSet

variable {σ : Type}

/-- What identifies the set as it is. -/
def id (s : VisitorSet σ) : VisitorSetId := ⟨s.number, s.visitors.length⟩

/-- The set and one more visitor behind the others. -/
def push (s : VisitorSet σ) (v : Visitor σ) : VisitorSet σ :=
  { s with visitors := s.visitors ++ [v] }

/-- The number of visitors. -/
def length (s : VisitorSet σ) : Nat := s.visitors.length

/-- The set has no visitors. -/
def isEmpty (s : VisitorSet σ) : Bool := s.visitors.isEmpty

/-- The visitors that are shown sites of a target. -/
def forTarget (s : VisitorSet σ) (t : Target) : List (Visitor σ) :=
  s.visitors.filter (·.handles t)

/-- Some visitor is shown sites of a target. -/
def handles (s : VisitorSet σ) (t : Target) : Bool := s.visitors.any (·.handles t)

end VisitorSet

end Weft
