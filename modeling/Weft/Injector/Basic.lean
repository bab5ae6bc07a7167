import Weft.Injector.Backend
import Weft.Injector.Config
import Weft.Space.ClassSpace
import Weft.Weave.Planning

/-!
# Injectors

An injector weaves what its visitors ask for into images. An image that it has woven before, or that
no visitor asks anything for, is left as it is. Each site is released as soon as its image is done
with; what visitors asked for stays cached until a visitor is added, and the callbacks stay
registered.
-/

namespace Weft

/-- An injector with what it has cached and registered. -/
structure Injector (σ : Type) where
  name : String
  config : Config
  backend : Backend
  ledger : Weave.Ledger σ
  visitors : VisitorSet σ := {}
  plans : PlanCache σ := {}

/-- An injector at work, and the world that its visitors act on. -/
structure Injecting (σ : Type) where
  injector : Injector σ
  world : σ

/-- What became of an image. -/
structure Transformed where
  primary : Bytes
  helpers : List (ClassName × Bytes) := []
  modified : Bool := false
  /-- The number of injections that were woven. -/
  injections : Nat := 0
  deriving DecidableEq, Inhabited

/-- What became of an image that was defined. -/
structure DefinedImage where
  handle : Handle
  helpers : List Handle
  modified : Bool
  deriving DecidableEq, Inhabited

namespace Injector

variable {σ : Type}

/-- An injector with a backend of its own. -/
def make (name : String) (registry : Registry σ) (config : Config) : Injector σ :=
  { name, config, ledger := { registry }
    backend := .make config.decodeOptions .all }

/-- The callbacks of woven code. -/
def registry (i : Injector σ) : Registry σ := i.ledger.registry

/-- The injector with one more visitor; what was composed without it is forgotten. -/
def addVisitor (v : Visitor σ) (i : Injector σ) : Injector σ :=
  { i with visitors := i.visitors.push v, plans := {} }

/-- What the injector composes sites with. -/
def composer (i : Injector σ) : Composer σ :=
  ⟨i.visitors, i.backend.supported, i.config.skipSynthetic⟩

/-- What woven images carry beside the injections. -/
def options (i : Injector σ) : Weave.Options :=
  ⟨i.config.nestAttributes, if i.config.stamp then some i.name else none⟩

/-- The class carries the mark of the injector, which would mark it. -/
def hasWoven (i : Injector σ) (s : ClassSite) : Bool :=
  i.config.stamp && s.woven?.any (·.injector == i.name)

/-- Fails unless woven images can be decoded. -/
def verify (i : Injector σ) (images : Weave.WovenImages) : Except Error Unit := do
  if i.config.verify then
    (images.primary :: images.helpers.map (·.2)).forM fun image => do
      let _ ← ClassSite.ofBytes i.config.decodeOptions 0 image

end Injector

namespace Injecting

variable {σ : Type}

/-- Changes the injector. -/
def update (change : Injector σ → Injector σ) (s : Injecting σ) : Injecting σ :=
  { s with injector := change s.injector }

/-- Runs what acts on the world alone. -/
def inWorld {α : Type} (run : StateM σ α) : StateM (Injecting σ) α := fun s =>
  let (a, world) := run s.world
  (a, { s with world })

/-- Composes a site. -/
def composing {α : Type} (step : Compose σ α) : Edit (Injecting σ) α :=
  step.zoom (fun s => ⟨s.injector.plans, s.world⟩)
    fun c s => ⟨{ s.injector with plans := c.cache }, c.world⟩

/-- Plans a composition. -/
def planning {α : Type} (step : Edit (Weave.Ledger σ) α) : Edit (Injecting σ) α :=
  step.zoom (·.injector.ledger) fun ledger => update fun i => { i with ledger }

/-- Decodes an image. -/
def decode (image : Bytes) : Edit (Injecting σ) ClassSite :=
  (Backend.decode image).zoom (·.injector.backend) fun backend => update fun i => { i with backend }

/-- Releases a site. -/
def release (s : ClassSite) : Injecting σ → Injecting σ :=
  update fun i => { i with backend := i.backend.release s }

/-- Weaves what visitors ask for into the class of a site with that image. -/
def weave (site : ClassSite) (image : Bytes) : Edit (Injecting σ) Transformed := do
  let i := (← get).injector
  if i.hasWoven site then return { primary := image }
  let composition ← composing (i.composer.composeAll site)
  if composition.isEmpty then return { primary := image }
  let plan ← planning (Weave.Plan.ofComposition i.options composition)
  let images ← plan.apply site
  i.verify images
  return ⟨images.primary, images.helpers, true, plan.injections⟩

/-- Weaves what visitors ask for into an image. -/
def transform (image : Bytes) : Edit (Injecting σ) Transformed := fun s =>
  match decode image s with
  | .error e s => .error e s
  | .ok site s =>
    match weave site image s with
    | .ok t s => .ok t (release site s)
    | .error e s => .error e (release site s)

/-- Weaves into images one after the other, whatever became of those before. -/
def transformAll (images : List Bytes) : StateM (Injecting σ) (List (Except Error Transformed)) :=
  images.mapM fun image => (transform image).attempt

/-- Defines an image and its helpers, the helpers first. -/
def defineAll (t : Transformed) (previous? : Option Handle) : Edit ClassSpace DefinedImage := do
  let helpers ← t.helpers.mapM fun h => ClassSpace.define h.2 none
  return ⟨← ClassSpace.define t.primary previous?, helpers, t.modified⟩

/-- Weaves what visitors ask for into an image and defines what comes of it. -/
def transformAndDefine (image : Bytes) (previous? : Option Handle) :
    Edit (Injecting σ × ClassSpace) DefinedImage := do
  let t ← (transform image).zoom Prod.fst fun s p => (s, p.2)
  (defineAll t previous?).zoom Prod.snd fun space p => (p.1, space)

end Injecting

end Weft
