import Weft.Proofs.Injector.Verification
import Weft.Proofs.Space.Definitions
import Weft.Proofs.Weave.Fields

/-!
# Where the classes of an image are defined

What an injector makes of an image is a class of the same name and helpers that are made for a class
of that name. A space that defines in place defines each of them under its name, so that the class
finds its helpers and they find the class. A space that makes new classes gives each another name,
under which none of them knows the others.
-/

namespace Weft

variable {options : DecodeOptions} {σ : Type}

/-! ## What images are taken as -/

theorem ClassSpace.Takes.name_eq {image : Bytes} {name : ClassName} {c : ClassFile}
    (h : Takes image name) (decoded : ClassFile.ofBytes options image = .ok c) :
    c.name = .ok name := by
  obtain ⟨c', decoded', named⟩ := check_of_takes h
  rwa [ClassFile.name_of_ofBytes decoded decoded'] at named

/-- The image is that of a helper class of that name, which is made for the owner. -/
def ServesOwner (owner : ClassName) (h : ClassName × Bytes) : Prop :=
  ∃ (helper : Weave.Helper) (majorVersion : UInt16) (nested : Bool) (made : ClassFile),
    h.1 = helper.name ∧ helper.classFile owner majorVersion nested = .ok made ∧
      made.toBytes = .ok h.2

namespace Weave

theorem Planner.NamesHelper.ofText_name {owner : ClassName} {h : Helper}
    (named : NamesHelper owner h) (dotless : '.' ∉ owner.internal.toList) :
    ClassName.ofText h.name.internal = h.name := by
  obtain ⟨letter, known, n, same⟩ := named
  have plain : '.' ∉ ("$cw$" ++ letter).toList := by
    simp only [helperLetters, List.mem_cons, List.not_mem_nil, or_false] at known
    rcases known with rfl | rfl | rfl <;> decide
  rw [same, nested_helperSuffix]
  exact ClassName.ofText_numbered dotless plain n

theorem Helper.takes_image {h : Helper} {owner : ClassName} {majorVersion : UInt16} {nested : Bool}
    {made : ClassFile} {image : Bytes} (version : ClassFile.leastVersion ≤ majorVersion)
    (emitted : h.classFile owner majorVersion nested = .ok made)
    (written : made.toBytes = .ok image) {name : ClassName} (taken : ClassSpace.Takes image name) :
    name = .ofText h.name.internal := by
  obtain ⟨readable, -, named⟩ := readable_classFile {} version emitted
  obtain ⟨-, q, same, read⟩ := ClassFile.ofBytes_toBytes readable written
  have named : ({ made with pool := q } : ClassFile).name = .ok (.ofText h.name.internal) :=
    Pool.className_mono (.of_entries same) named
  exact Except.ok.inj ((taken.name_eq read).symm.trans named)

/-- The images of a plan are taken as those of the class and of the helpers. -/
theorem Plan.takes_of_apply {composition : Composition σ} {weaving : Options} {plan : Plan}
    {l l' : Ledger σ} {image : Bytes} {decoding : Nat} {images : WovenImages}
    (planned : Plan.ofComposition weaving composition l = .ok plan l')
    (site : ClassSite.ofBytes options decoding image = .ok composition.site)
    (applied : plan.apply composition.site = .ok images) :
    (∀ name, ClassSpace.Takes images.primary name → name = composition.site.name) ∧
      ∀ h ∈ images.helpers, ServesOwner composition.site.name h ∧
        ∀ name, ClassSpace.Takes h.2 name → name = h.1 := by
  obtain ⟨c, decoded, lists⟩ := ClassSite.lists_of_ofBytes site
  obtain ⟨given, -, registers⟩ := registers_of_ofComposition planned
  obtain ⟨c', woven, written, helped⟩ := apply_eq_ok applied
  rw [lists.classFile] at woven
  have readable := (ClassFile.decoded_of_ofBytes decoded).readable
  have keeps := (keeps_of_weave options woven readable.pool).1
  have readable' := keeps.readable readable
  have known : c.name = .ok composition.site.name := by
    rw [← lists.classFile]
    exact ClassSite.name_of_ofBytes site
  constructor
  · intro name taken
    obtain ⟨-, q, same, read⟩ := ClassFile.ofBytes_toBytes readable' written
    have named : ({ c' with pool := q } : ClassFile).name = .ok composition.site.name := by
      show q.className c'.thisClass = _
      rw [keeps.thisClass]
      exact Pool.className_mono (keeps.pool.keeps.trans (.of_entries same)) known
    exact Except.ok.inj ((taken.name_eq read).symm.trans named)
  · intro h mem
    obtain ⟨helper, planned, same, made, emitted, written⟩ := forall₂_mem_right helped mem
    refine ⟨⟨helper, _, _, made, same, emitted, written⟩, fun name taken => ?_⟩
    have spelled := helper.takes_image readable'.version emitted written taken
    rw [spelled, same]
    exact (registers.helpers helper planned).ofText_name (Pool.dotless_of_className known)

end Weave

namespace Injecting

/-! ## What is made of an image -/

variable {image : Bytes} {site : ClassSite} {t : Transformed}

/-- The class keeps its name, and the helpers are made for it. -/
structure Names (site : ClassSite) (t : Transformed) : Prop where
  primary : ∀ name, ClassSpace.Takes t.primary name → name = site.name
  helpers : ∀ h ∈ t.helpers, ServesOwner site.name h ∧
    ∀ name, ClassSpace.Takes h.2 name → name = h.1

theorem names_of_weave {s s' : Injecting σ} {decoding : Nat}
    (decoded : ClassSite.ofBytes options decoding image = .ok site)
    (done : weave site image s = .ok t s') : Names site t := by
  rcases weave_eq_ok done with
    rfl | ⟨composition, s₁, plan, s₂, images, composed, planned, applied, rfl⟩
  · constructor
    case primary =>
      intro name taken
      obtain ⟨c, read, lists⟩ := ClassSite.lists_of_ofBytes decoded
      have known := ClassSite.name_of_ofBytes decoded
      rw [lists.classFile] at known
      exact Except.ok.inj ((taken.name_eq read).symm.trans known)
    case helpers => exact fun h mem => nomatch mem
  · obtain ⟨c, composed, -⟩ := edit_zoom_eq_ok.1 composed
    obtain ⟨ledger, planned, -⟩ := edit_zoom_eq_ok.1 planned
    obtain ⟨rfl, -⟩ := Composer.composeAll_eq_ok composed
    obtain ⟨first, rest⟩ := Weave.Plan.takes_of_apply planned decoded applied
    exact ⟨first, rest⟩

theorem names_of_transform {s s' : Injecting σ} (own : s.Own)
    (done : transform image s = .ok t s') : ∃ (site : ClassSite) (decoding : Nat),
      ClassSite.ofBytes s.injector.config.decodeOptions decoding image = .ok site ∧
        Names site t := by
  obtain ⟨site, decoding, b, s₁, read, woven⟩ := transform_eq_ok own done
  exact ⟨site, decoding, read, names_of_weave read woven⟩

/-! ## Where it is defined -/

/-- The definition of each helper. -/
theorem defineHelpers_eq_ok {hs : List (ClassName × Bytes)} {handles : List Handle}
    {s s' : ClassSpace}
    (h : hs.mapM (fun h => ClassSpace.define h.2 none) s = .ok handles s') :
    s'.mode = s.mode ∧ (∀ name, (s.get? name).isSome → (s'.get? name).isSome) ∧
      List.Forall₂ (fun h handle => (s'.get? handle.name).isSome ∧
        ∃ base, ClassSpace.Takes h.2 base ∧ handle.name = s.mode.nameFor base handle.id)
        hs handles := by
  induction hs generalizing s handles with
  | nil =>
    obtain ⟨rfl, rfl⟩ := step_pure_eq_ok.1 h
    exact ⟨rfl, fun _ => id, .nil⟩
  | cons helper hs ih =>
    obtain ⟨handle, rest, s₁, first, second, rfl⟩ := step_mapM_cons_eq_ok.1 h
    have defines := ClassSpace.define_eq_ok first
    obtain ⟨mode, kept, each⟩ := ih second
    obtain ⟨⟨d, found, -⟩, -⟩ := defines.get?_eq handle.name
    refine ⟨mode.trans defines.mode, fun name before => kept name (defines.isSome_get? before),
      .cons ⟨kept _ (by rw [found]; rfl), defines.name⟩ ?_⟩
    rwa [defines.mode] at each

/-- What an injector makes of an image is defined under the names that the space gives to the names
of the class and of its helpers. -/
theorem transformAndDefine_defines {s s' : Injecting σ × ClassSpace} {previous? : Option Handle}
    {d : DefinedImage} (reached : s.1.Reached)
    (done : transformAndDefine image previous? s = .ok d s') :
    ∃ (site : ClassSite) (decoding : Nat) (t : Transformed),
      ClassSite.ofBytes s.1.injector.config.decodeOptions decoding image = .ok site ∧
      transform image s.1 = .ok t s'.1 ∧
      d.handle.name = s.2.mode.nameFor site.name d.handle.id ∧
      (∃ latest, s'.2.get? d.handle.name = some latest ∧ latest.handle = d.handle ∧
        (s.2.mode = .inPlace → latest.image = t.primary)) ∧
      (∀ h ∈ t.helpers, ServesOwner site.name h) ∧
      List.Forall₂ (fun h handle => ClassSpace.Takes h.2 h.1 ∧
        handle.name = s.2.mode.nameFor h.1 handle.id ∧ (s'.2.get? handle.name).isSome)
        t.helpers d.helpers := by
  obtain ⟨t, s₁, first, done⟩ := step_bind_eq_ok.1 done
  obtain ⟨after, transformed, rfl⟩ := edit_zoom_eq_ok.1 first
  obtain ⟨space, defined, rfl⟩ := edit_zoom_eq_ok.1 done
  obtain ⟨handles, space₁, helped, defined⟩ := step_bind_eq_ok.1 defined
  obtain ⟨handle, space₂, last, defined⟩ := step_bind_eq_ok.1 defined
  obtain ⟨rfl, rfl⟩ := step_pure_eq_ok.1 defined
  obtain ⟨site, decoding, decoded, names⟩ := names_of_transform reached.own transformed
  obtain ⟨mode, -, each⟩ := defineHelpers_eq_ok helped
  have defines := ClassSpace.define_eq_ok last
  obtain ⟨⟨latest, found, same, whole⟩, -⟩ := defines.get?_eq handle.name
  obtain ⟨base, taken, named⟩ := defines.name
  obtain rfl := names.primary base taken
  rw [mode] at named whole
  refine ⟨site, decoding, t, decoded, transformed, named, ⟨latest, found, same, whole⟩,
    fun h mem => (names.helpers h mem).1, ?_⟩
  refine ((List.forall₂_and_left _ _).2 ⟨fun h mem => names.helpers h mem, each⟩).imp ?_
  rintro h handle' ⟨⟨-, only⟩, there, base, taken, named⟩
  obtain rfl := only base taken
  exact ⟨taken, named, defines.isSome_get? there⟩

/-- The class is defined under the name that its helpers know it by, and each helper under the name
that the class knows it by, exactly in spaces that define in place. -/
theorem transformAndDefine_finds {s s' : Injecting σ × ClassSpace} {previous? : Option Handle}
    {d : DefinedImage} (reached : s.1.Reached)
    (done : transformAndDefine image previous? s = .ok d s') :
    ∃ (owner : ClassName) (t : Transformed), transform image s.1 = .ok t s'.1 ∧
      (∀ h ∈ t.helpers, ServesOwner owner h) ∧
      (s'.2.get? d.handle.name).isSome ∧ (d.handle.name = owner ↔ s.2.mode = .inPlace) ∧
      List.Forall₂ (fun h handle => (s'.2.get? handle.name).isSome ∧
        (handle.name = h.1 ↔ s.2.mode = .inPlace)) t.helpers d.helpers := by
  obtain ⟨site, decoding, t, decoded, transformed, named, ⟨latest, found, -⟩, serve, each⟩ :=
    transformAndDefine_defines reached done
  have known := Pool.dotless_of_className (ClassSite.name_of_ofBytes decoded)
  refine ⟨site.name, t, transformed, serve, by rw [found]; rfl, ?_, each.imp ?_⟩
  · rw [named]
    exact ClassSpace.nameFor_eq_iff known d.handle.id
  · rintro h handle ⟨⟨c, -, known⟩, named, there⟩
    refine ⟨there, ?_⟩
    rw [named]
    exact ClassSpace.nameFor_eq_iff (Pool.dotless_of_className known) handle.id

end Injecting

end Weft
