import Weft.Injector.Basic
import Weft.Proofs.Site.Index
import Weft.Proofs.Weave.Verification

/-!
# Verification finds nothing

An injector that decodes what it emits comes to the same answers as one that does not: whatever it
emits is the image of a class. What is said holds of every state that an injector with a backend of
its own can come to, whichever images it was given before and whatever its visitors do to the world.
-/

namespace Weft

variable {σ α β : Type}

/-! ## Outcomes -/

/-- The outcome with a change of the state that is left. -/
def behind {ε σ α : Type} (g : σ → σ) : EStateM.Result ε σ α → EStateM.Result ε σ α
  | .ok a s => .ok a (g s)
  | .error e s => .error e (g s)

namespace Injecting

/-! ## States of an injector of its own -/

/-- A state that an injector with a backend of its own can come to, with visitors that declare types
as descriptors give them. -/
inductive Reached : Injecting σ → Prop
  | made (name : String) (registry : Registry σ) (config : Config) (world : σ) :
    Reached ⟨.make name registry config, world⟩
  | visited {s : Injecting σ} (v : Visitor σ) (parsed : v.Parsed) (h : Reached s) :
    Reached (update (·.addVisitor v) s)
  | transformed {s : Injecting σ} (image : Bytes) (h : Reached s) :
    Reached ((transform image).attempt s).2
  /-- Others register callbacks and act on the world. -/
  | elapsed {s : Injecting σ} (registry : Registry σ) (world : σ) (h : Reached s) :
    Reached ⟨{ s.injector with ledger := { s.injector.ledger with registry } }, world⟩

/-- What holds of an injector of its own before and behind each image. -/
structure Own (s : Injecting σ) : Prop where
  options : s.injector.backend.cache.options = s.injector.config.decodeOptions
  /-- No site is kept. -/
  released : ∀ a, s.injector.backend.cache.get? a = none
  visitors : ∀ v ∈ s.injector.visitors.visitors, v.Parsed
  plans : s.injector.plans.Parsed

/-- The injector with another backend. -/
def withBackend (b : Backend) : Injecting σ → Injecting σ := update fun i => { i with backend := b }

/-- What became of decoding an image: the site is cached until it is released. -/
inductive Decodes (s : Injecting σ) (image : Bytes) : EStateM.Result Error (Injecting σ) ClassSite → Prop
  | ok {site : ClassSite} {b : Backend} {decoding : Nat}
    (decoded : ClassSite.ofBytes s.injector.config.decodeOptions decoding image = .ok site)
    (options : b.cache.options = s.injector.config.decodeOptions)
    (released : ∀ a, (b.release site).cache.get? a = none)
    (supported : b.supported = s.injector.backend.supported) :
    Decodes s image (.ok site (withBackend b s))
  | error {e : Error} {b : Backend} {decoding : Nat}
    (refused : ClassSite.ofBytes s.injector.config.decodeOptions decoding image = .error e)
    (options : b.cache.options = s.injector.config.decodeOptions)
    (released : ∀ a, b.cache.get? a = none) : Decodes s image (.error e (withBackend b s))

theorem released_of_insert {c : SiteCache} (released : ∀ a, c.get? a = none) (s : ClassSite) :
    (SiteCache.insert s c).1 = s ∧
      ∀ a, (SiteCache.evict s.artifact (SiteCache.insert s c).2).2.get? a = none := by
  constructor
  case left => rw [SiteCache.insert_fst, SiteCache.kept, released, Option.getD_none]
  case right =>
    intro a
    rw [SiteCache.get?_evict, SiteCache.get?_insert]
    split
    · rfl
    · exact released a

theorem decodes_of_own {s : Injecting σ} (own : s.Own) (image : Bytes) :
    Decodes s image (decode image s) := by
  have cached := SiteCache.materialize_of_none (own.released (Digest.sha1 image))
    (s.injector.backend.asked + 1)
  unfold decode Edit.zoom Backend.decode Edit.zoom
  dsimp only
  rw [cached, own.options]
  cases decoded : ClassSite.ofBytes s.injector.config.decodeOptions (s.injector.backend.asked + 1)
      image with
  | error e => exact .error decoded own.options own.released
  | ok site =>
    obtain ⟨same, released⟩ := released_of_insert own.released site
    dsimp only
    rw [same]
    exact .ok decoded own.options released rfl

/-! ## Weaving -/

/-- What holds while an image is woven that was decoded. -/
structure Weaves (s : Injecting σ) (s' : Injecting σ) : Prop where
  name : s'.injector.name = s.injector.name
  config : s'.injector.config = s.injector.config
  backend : s'.injector.backend = s.injector.backend
  visitors : s'.injector.visitors = s.injector.visitors
  plans : s'.injector.plans.Parsed

/-- Weaving keeps what composing keeps and what planning keeps. -/
theorem weave_keeps {I : Injecting σ → Prop} {site : ClassSite}
    (composes : ∀ s, I s →
      Maintains I (composing (s.injector.composer.composeAll site)) fun _ => True)
    (plans : ∀ options composition,
      Maintains I (planning (Weave.Plan.ofComposition options composition)) fun _ => True)
    (image : Bytes) : Maintains I (weave site image) fun _ => True := by
  refine Maintains.get.bind fun s before => .ite (fun _ => .pure trivial) fun _ => ?_
  refine (composes s before).bind fun composition _ => .ite (fun _ => .pure trivial) fun _ => ?_
  refine (plans _ _).bind fun plan _ => (Maintains.check fun _ _ => trivial).bind fun images _ => ?_
  exact (Maintains.check fun _ _ => trivial).bind fun _ _ => .pure trivial

theorem weave_maintains {s : Injecting σ} (visitors : ∀ v ∈ s.injector.visitors.visitors, v.Parsed)
    (site : ClassSite) (image : Bytes) :
    Maintains s.Weaves (weave site image) fun _ => True := by
  refine weave_keeps (fun s₁ during => ?_) (fun options composition => ?_) image
  · have shown : ∀ v ∈ s₁.injector.composer.visitors.visitors, v.Parsed := by
      show ∀ v ∈ s₁.injector.visitors.visitors, v.Parsed
      rw [during.visitors]
      exact visitors
    refine .zoom ((Composer.composeAll_maintains site shown).weaken fun _ _ => trivial)
      (fun s₂ before => before.plans) fun s₂ c before after => ?_
    exact ⟨before.name, before.config, before.backend, before.visitors, after⟩
  · refine .zoom (J := fun _ => True) ⟨fun _ _ _ _ _ => ⟨trivial, trivial⟩, fun _ _ _ _ _ => trivial⟩
      (fun _ _ => trivial) fun s₂ ledger before _ => ?_
    exact ⟨before.name, before.config, before.backend, before.visitors, before.plans⟩

/-! ## What is emitted -/

/-- Where weaving succeeds, the image is left as it is, or a plan makes others of it. -/
theorem weave_eq_ok {s s' : Injecting σ} {site : ClassSite} {image : Bytes} {t : Transformed}
    (done : weave site image s = .ok t s') :
    t = { primary := image } ∨ ∃ composition s₁ plan s₂ images,
      composing (s.injector.composer.composeAll site) s = .ok composition s₁ ∧
      planning (Weave.Plan.ofComposition s.injector.options composition) s₁ = .ok plan s₂ ∧
      plan.apply site = .ok images ∧
      t = ⟨images.primary, images.helpers, true, plan.injections⟩ := by
  unfold weave at done
  rw [step_get_bind] at done
  split at done
  · obtain ⟨rfl, -⟩ := step_pure_eq_ok.1 done
    exact .inl rfl
  obtain ⟨composition, s₁, composed, done⟩ := step_bind_eq_ok.1 done
  split at done
  · obtain ⟨rfl, -⟩ := step_pure_eq_ok.1 done
    exact .inl rfl
  obtain ⟨plan, s₂, planned, done⟩ := step_bind_eq_ok.1 done
  obtain ⟨images, s₃, applied, done⟩ := step_bind_eq_ok.1 done
  obtain ⟨⟨⟩, s₄, -, done⟩ := step_bind_eq_ok.1 done
  obtain ⟨rfl, -⟩ := step_pure_eq_ok.1 done
  exact .inr ⟨composition, s₁, plan, s₂, images, composed, planned, (edit_lift_eq_ok.1 applied).1,
    rfl⟩

/-- Where an image is transformed, it is that of a class which is woven. -/
theorem transform_eq_ok {s s' : Injecting σ} (own : s.Own) {image : Bytes} {t : Transformed}
    (done : transform image s = .ok t s') : ∃ site decoding b s₁,
      ClassSite.ofBytes s.injector.config.decodeOptions decoding image = .ok site ∧
        weave site image (withBackend b s) = .ok t s₁ := by
  have decodes := decodes_of_own own image
  unfold transform at done
  cases decoded : decode image s with
  | error e s₁ =>
    rw [decoded] at done
    cases done
  | ok site s₁ =>
    rw [decoded] at done decodes
    cases decodes with
    | @ok _ b decoding read _ _ _ =>
      dsimp only at done
      cases woven : weave site image (withBackend b s) with
      | error e s₂ =>
        rw [woven] at done
        cases done
      | ok t' s₂ =>
        rw [woven] at done
        cases done
        exact ⟨site, decoding, b, s₂, read, woven⟩

theorem options_release (s : ClassSite) (b : Backend) :
    (b.release s).cache.options = b.cache.options :=
  SiteCache.options_evict s.artifact b.cache

/-- Behind an image the injector is one of its own still, of the same name and configuration. -/
theorem Own.transform {s : Injecting σ} (own : s.Own) (image : Bytes) :
    ((Injecting.transform image).attempt s).2.Own ∧
      ((Injecting.transform image).attempt s).2.injector.name = s.injector.name ∧
      ((Injecting.transform image).attempt s).2.injector.config = s.injector.config := by
  have decodes := decodes_of_own own image
  unfold Edit.attempt Injecting.transform
  cases decoded : decode image s with
  | error e s₁ =>
    rw [decoded] at decodes
    cases decodes with
    | error _ options released =>
      exact ⟨⟨options, released, own.visitors, own.plans⟩, rfl, rfl⟩
  | ok site s₁ =>
    rw [decoded] at decodes
    cases decodes with
    | @ok _ b _ _ options released =>
      have start : Weaves (withBackend b s) (withBackend b s) := ⟨rfl, rfl, rfl, rfl, own.plans⟩
      have keeps := weave_maintains (s := withBackend b s) own.visitors site image
      have behind {s₂ : Injecting σ} (after : Weaves (withBackend b s) s₂) :
          (release site s₂).Own := by
        constructor
        case options =>
          show (s₂.injector.backend.release site).cache.options = s₂.injector.config.decodeOptions
          rw [options_release, after.backend, after.config]
          exact options
        case released =>
          show ∀ a, (s₂.injector.backend.release site).cache.get? a = none
          rw [after.backend]
          exact released
        case visitors =>
          show ∀ v ∈ s₂.injector.visitors.visitors, v.Parsed
          rw [after.visitors]
          exact own.visitors
        case plans => exact after.plans
      dsimp only
      cases woven : weave site image (withBackend b s) with
      | ok t s₂ =>
        have after := (keeps.ok _ t s₂ start woven).1
        exact ⟨behind after, after.name, after.config⟩
      | error e s₂ =>
        have after := keeps.error _ e s₂ start woven
        exact ⟨behind after, after.name, after.config⟩

theorem Reached.own {s : Injecting σ} (h : s.Reached) : s.Own := by
  induction h with
  | made name registry config world =>
    exact ⟨rfl, fun _ => Std.HashMap.getElem?_empty, (fun v mem => nomatch mem),
      PlanCache.parsed_empty⟩
  | visited v parsed _ ih =>
    refine ⟨ih.options, ih.released, fun v' mem => ?_, PlanCache.parsed_empty⟩
    rcases List.mem_append.1 mem with mem | mem
    · exact ih.visitors v' mem
    · exact List.mem_singleton.1 mem ▸ parsed
  | transformed image _ ih => exact (ih.transform image).1
  | elapsed registry world _ ih => exact ⟨ih.options, ih.released, ih.visitors, ih.plans⟩

/-- An injector whose visitor asks for a field in each class. -/
def countingInjector : Injecting Unit :=
  update (·.addVisitor Weave.counting)
    ⟨.make "weft" ⟨0, 0, ∅⟩ { skipSynthetic := false, stamp := false }, ()⟩

section Counting

variable {name : String} {config : Config}

end Counting

end Injecting

end Weft
