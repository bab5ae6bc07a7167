import Weft.Proofs.Injector.Verification
import Weft.Proofs.Weave.Marks

/-!
# Injectors recognize what they wove

An injector that marks its images leaves an image that it wove as it is, whatever became of the
injector in the meantime, and no visitor is asked. Where several injectors weave a class one behind
the other, only the last of them recognizes it: its mark takes the place of the mark before.
-/

namespace Weft

variable {options : DecodeOptions} {σ : Type} {image : Bytes} {t : Transformed}

namespace Injecting

/-! ## What becomes of injectors -/

/-- What can become of an injector: it gets visitors and images, and others register callbacks and
act on the world. -/
inductive Becomes (s : Injecting σ) : Injecting σ → Prop
  | same : Becomes s s
  | visited {s' : Injecting σ} (v : Visitor σ) (parsed : v.Parsed) (h : Becomes s s') :
    Becomes s (update (·.addVisitor v) s')
  | transformed {s' : Injecting σ} (image : Bytes) (h : Becomes s s') :
    Becomes s ((transform image).attempt s').2
  | elapsed {s' : Injecting σ} (registry : Registry σ) (world : σ) (h : Becomes s s') :
    Becomes s ⟨{ s'.injector with ledger := { s'.injector.ledger with registry } }, world⟩

variable {s s' s'' : Injecting σ}

theorem Becomes.reached (h : Becomes s s') (reached : s.Reached) : s'.Reached := by
  induction h with
  | same => exact reached
  | visited v parsed _ ih => exact .visited v parsed ih
  | transformed image _ ih => exact .transformed image ih
  | elapsed registry world _ ih => exact .elapsed registry world ih

/-- Whichever decoding it is of, the image is that of a class whose mark is of that name. -/
def Bears (options : DecodeOptions) (name : String) (image : Bytes) : Prop :=
  ∀ decoding, ∃ site, ClassSite.ofBytes options decoding image = .ok site ∧
    site.classFile.Markable site.pool ∧ ∃ modified, site.woven? = some ⟨name, modified⟩

/-- What an injector makes of an image bears its mark. -/
theorem bears_of_transform (own : s.Own) (stamps : s.injector.config.stamp = true)
    (markable : ∀ c, ClassFile.ofBytes s.injector.config.decodeOptions image = .ok c →
      c.Markable c.pool)
    (done : transform image s = .ok t s') (modified : t.modified = true) :
    Bears s.injector.config.decodeOptions s.injector.name t.primary := by
  obtain ⟨site, decoding, b, s₁, read, woven⟩ := transform_eq_ok own done
  rcases weave_eq_ok woven with
    rfl | ⟨composition, s₂, plan, s₃, images, composed, planned, applied, rfl⟩
  · cases modified
  obtain ⟨c, composed, -⟩ := edit_zoom_eq_ok.1 composed
  obtain ⟨ledger, planned, -⟩ := edit_zoom_eq_ok.1 planned
  obtain ⟨rfl, sites⟩ := Composer.composeAll_eq_ok composed
  have parsed := ((Composer.composeAll_maintains _ own.visitors).ok _ _ _ own.plans composed).2
  obtain ⟨classFile, decoded, lists⟩ := ClassSite.lists_of_ofBytes read
  have before : composition.site.classFile.Markable composition.site.pool := by
    rw [ClassSite.pool, lists.classFile]
    exact markable classFile decoded
  have stamp : plan.options.stamp = some s.injector.name := by
    rw [Weave.Plan.options_of_ofComposition planned]
    exact if_pos stamps
  intro again
  obtain ⟨site', reread, markable', mark⟩ := Weave.Plan.marked_of_apply stamp read
    (Weave.Plan.suits_of_ofComposition planned sites)
    (Weave.Plan.spelled_of_ofComposition planned parsed) applied before again
  exact ⟨site', reread, markable', _, mark⟩

/-- Injectors of those names, the last of them first, wove the image one behind the other and marked
what they made of it. -/
inductive WovenBy (options : DecodeOptions) (image : Bytes) : List String → Bytes → Prop
  | untouched : WovenBy options image [] image
  | again {names : List String} {woven : Bytes} {σ : Type} {s s' : Injecting σ} {t : Transformed}
    (h : WovenBy options image names woven) (reached : s.Reached)
    (same : s.injector.config.decodeOptions = options) (stamps : s.injector.config.stamp = true)
    (done : transform woven s = .ok t s') (modified : t.modified = true) :
    WovenBy options image (s.injector.name :: names) t.primary

theorem markable_of_bears {name : String} (bears : Bears options name image) :
    ∀ c, ClassFile.ofBytes options image = .ok c → c.Markable c.pool := by
  intro c read
  obtain ⟨site, decoded, markable, -⟩ := bears 0
  obtain ⟨c', read', lists⟩ := ClassSite.lists_of_ofBytes decoded
  cases read.symm.trans read'
  rwa [ClassSite.pool, lists.classFile] at markable

/-- Each injector erases the marks of those before it, and leaves its own. -/
theorem WovenBy.bears {names : List String} {woven : Bytes} (h : WovenBy options image names woven)
    (bare : ∀ c, ClassFile.ofBytes options image = .ok c → c.marks = []) :
    (∀ c, ClassFile.ofBytes options woven = .ok c → c.Markable c.pool) ∧
      ∀ name ∈ names.head?, Bears options name woven := by
  induction h with
  | untouched =>
    refine ⟨fun c read => ?_, fun name mem => nomatch mem⟩
    exact ClassFile.markable_of_bare (bare c read) (ClassFile.decoded_of_ofBytes read).labelled
  | @again names woven σ s s' t h reached same stamps done modified ih =>
    have bears : Bears options s.injector.name t.primary :=
      same ▸ bears_of_transform reached.own stamps (same ▸ ih.1) done modified
    refine ⟨markable_of_bears bears, fun name mem => ?_⟩
    cases Option.some.inj mem
    exact bears

/-- Of the injectors that wove an image without marks one behind the other, those of the name of
the last recognize it, and no others do: a class that was woven by another injector in between is
woven again. -/
theorem WovenBy.hasWoven_iff {name : String} {names : List String} {woven : Bytes}
    (h : WovenBy options image (name :: names) woven)
    (bare : ∀ c, ClassFile.ofBytes options image = .ok c → c.marks = []) {i : Injector σ}
    (stamps : i.config.stamp = true) {decoding : Nat} {site : ClassSite}
    (read : ClassSite.ofBytes options decoding woven = .ok site) :
    i.hasWoven site = true ↔ i.name = name := by
  obtain ⟨site', read', -, modified, mark⟩ := (h.bears bare).2 name rfl decoding
  cases read.symm.trans read'
  rw [Injector.hasWoven, stamps, mark, Bool.true_and, Option.any_some, beq_iff_eq]
  exact eq_comm

end Injecting

end Weft
