import Std.Data.HashMap
import Weft.Edit
import Weft.Visitor.Basic

/-!
# Composition

Composing a site shows it to the visitors and orders what they answer by rank. An answer for another
target, or of a kind that is not supported, refuses the whole. What was composed for a site and a
set of visitors is cached; the composition of a class is cached only when all of it succeeds.
-/

namespace Weft

/-- Composed injections by site and set of visitors. -/
structure PlanCache (σ : Type) where
  entries : Std.HashMap (SiteKey × VisitorSetId) (List (Injection σ)) := ∅

namespace PlanCache

variable {σ : Type}

/-- The number of composed sites. -/
def size (c : PlanCache σ) : Nat := c.entries.size

/-- Nothing is composed. -/
def isEmpty (c : PlanCache σ) : Bool := c.entries.isEmpty

/-- What was composed for a site and a set of visitors. -/
def get? (c : PlanCache σ) (key : SiteKey) (id : VisitorSetId) : Option (List (Injection σ)) :=
  c.entries[(key, id)]?

/-- Keeps what was composed, unless there is something already; answers what is kept. -/
def store (key : SiteKey) (id : VisitorSetId) (composed : List (Injection σ)) :
    StateM (PlanCache σ) (List (Injection σ)) := modifyGet fun c =>
  (c.entries.getD (key, id) composed, ⟨c.entries.insertIfNew (key, id) composed⟩)

/-- The cache as listings show it. -/
def text (c : PlanCache σ) : String :=
  Text.labelled "PlanCache" [("entries", toString c.size)]

end PlanCache

/-- The injections of a class and of its members, of which only those with injections are listed. -/
structure Composition (σ : Type) where
  site : ClassSite
  additions : List (Injection σ) := []
  fields : List (FieldSite × List (Injection σ)) := []
  methods : List (MethodSite × List (Injection σ)) := []

namespace Composition

variable {σ : Type}

/-- The number of injections. -/
def length (c : Composition σ) : Nat :=
  c.additions.length + (c.fields.flatMap (·.2)).length + (c.methods.flatMap (·.2)).length

/-- There are no injections. -/
def isEmpty (c : Composition σ) : Bool := c.length == 0

end Composition

/-- The state of composing: what is composed, and the world that visitors act on. -/
structure Composing (σ : Type) where
  cache : PlanCache σ := {}
  world : σ

/-- A step of composing. -/
abbrev Compose (σ α : Type) := Edit (Composing σ) α

namespace Compose

variable {σ : Type}

/-- A step of a visitor. -/
def visiting {α : Type} (step : StateM σ α) : Compose σ α := fun s =>
  let (a, world) := step s.world
  .ok a { s with world }

/-- A change of the cache. -/
def caching {α : Type} (change : StateM (PlanCache σ) α) : Compose σ α := fun s =>
  let (a, cache) := change s.cache
  .ok a { s with cache }

end Compose

/-- What composing depends on beside the site. -/
structure Composer (σ : Type) where
  visitors : VisitorSet σ
  supported : Kinds
  /-- Members that do not appear in source text are not shown to visitors of a whole class. -/
  skipSynthetic : Bool := false

namespace Composer

variable {σ : Type}

/-- The answer of a visitor at a site, if it asks for something and may do so. -/
def check (c : Composer σ) (visitor : String) (site : Site) (i : Injection σ) :
    Except Error (Option (Injection σ)) :=
  if i.target ≠ site.target then
    .error (.incompatible (.wrongTarget visitor i.target site.target site.name))
  else if i.isNothing then .ok none
  else if c.supported.supports i.kind then .ok (some i)
  else .error (.incompatible (.unrealizable visitor i.kind site.name))

/-- What visitors ask for at a site, in their order. -/
def answers (c : Composer σ) (site : Site) : List (Visitor σ) → Compose σ (List (Injection σ))
  | [] => return []
  | v :: rest => do
    match ← Compose.visiting (v.visit site) with
    | none => c.answers site rest
    | some i => return (← c.check v.name site i).toList ++ (← c.answers site rest)

/-- What all visitors ask for at a site, by rank. -/
def visitAll (c : Composer σ) (site : Site) : Compose σ (List (Injection σ)) := do
  return Injection.sortByRank (← c.answers site (c.visitors.forTarget site.target))

/-- What is composed for a site, or else what visitors ask for. -/
def stage (c : Composer σ) (site : Site) : Compose σ (List (Injection σ)) := do
  match (← get).cache.get? site.key c.visitors.id with
  | some composed => return composed
  | none => c.visitAll site

/-- Caches what was composed for a site. -/
def commit (c : Composer σ) (site : Site) (composed : List (Injection σ)) :
    Compose σ (List (Injection σ)) :=
  Compose.caching (PlanCache.store site.key c.visitors.id composed)

/-- The injections of a site. -/
def compose (c : Composer σ) (site : Site) : Compose σ (List (Injection σ)) := do
  match (← get).cache.get? site.key c.visitors.id with
  | some composed => return composed
  | none => c.commit site (← c.visitAll site)

/-- What is composed for each member that is shown to visitors. -/
def stageMembers {α : Type} (c : Composer σ) (target : Target) (site : α → Site)
    (members : List α) : Compose σ (List (α × List (Injection σ))) :=
  if c.visitors.handles target then
    (members.filter fun m => !(c.skipSynthetic && (site m).isSynthetic)).mapM fun m => do
      return (m, ← c.stage (site m))
  else return []

/-- Caches what was composed for members; answers those with injections. -/
def commitMembers {α : Type} (c : Composer σ) (site : α → Site)
    (staged : List (α × List (Injection σ))) : Compose σ (List (α × List (Injection σ))) := do
  let kept ← staged.mapM fun (m, composed) => do return (m, ← c.commit (site m) composed)
  return kept.filter (!·.2.isEmpty)

/-- The injections of a class and of its members. -/
def composeAll (c : Composer σ) (s : ClassSite) : Compose σ (Composition σ) := do
  let additions ← c.stage (.ofClass s)
  let fields ← c.stageMembers .ofField .ofField s.fields
  let methods ← c.stageMembers .ofMethod .ofMethod s.methods
  return ⟨s, ← c.commit (.ofClass s) additions, ← c.commitMembers .ofField fields,
    ← c.commitMembers .ofMethod methods⟩

end Composer

end Weft
