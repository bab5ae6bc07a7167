import Weft.Proofs.Weave.Fields
import Weft.Proofs.Weave.Verification

/-!
# Marks of injectors

A class that an injector weaves and marks bears the mark of that injector and no other: the mark
takes the place of the one that the class bore before, or is appended. Of all attributes only that
one stands under the name of marks, so that it is found again when the image is read.
-/

namespace Weft

variable {options : DecodeOptions} {p q : Pool}

/-! ## Classes with marks -/

/-- The mark that the body is. -/
def AttributeBody.mark? : AttributeBody → Option WovenStamp
  | .woven stamp => some stamp
  | _ => none

theorem AttributeBody.mark?_isSome {body : AttributeBody} :
    body.mark?.isSome = true ↔ body.name? = some "classweave.Woven" := by
  cases body with
  | annotations visible items | parameterAnnotations visible items =>
    cases visible <;> simp [mark?, name?]
  | _ => simp [mark?, name?]

theorem Attribute.Labelled.mark?_isSome {a : Attribute} (h : a.Labelled p) :
    a.body.mark?.isSome = true ↔ p.utf8 a.name = .ok "classweave.Woven" := by
  obtain ⟨text, named, labelled⟩ := h
  rw [AttributeBody.mark?_isSome, named, Except.ok.injEq]
  rcases labelled with known | ⟨unknown, other⟩
  · simp only [known, Option.some.injEq]
  · rw [unknown]
    refine ⟨nofun, fun same => ?_⟩
    exact absurd (same ▸ rfl) (other (.woven ⟨0, false⟩))

namespace ClassFile

/-- The marks on the class. -/
def marks (c : ClassFile) : List WovenStamp := c.attributes.filterMap (·.body.mark?)

/-- The class bears one mark at most, where the pool remembers the name of marks. -/
structure Markable (p : Pool) (c : ClassFile) : Prop where
  few : c.marks.length ≤ 1
  labelled : ∀ a ∈ c.attributes, a.Labelled p
  placed : ∀ a ∈ c.attributes, a.body.mark?.isSome = true →
    c.pool.lookup[Constant.utf8 "classweave.Woven"]? = some a.name

variable {c c' : ClassFile}

theorem markable_of_bare (bare : c.marks = []) (labelled : ∀ a ∈ c.attributes, a.Labelled c.pool) :
    c.Markable c.pool where
  few := by simp [bare]
  labelled := labelled
  placed a mem mark := by
    obtain ⟨stamp, is_mark⟩ := Option.isSome_iff_exists.1 mark
    have listed : stamp ∈ c.marks := List.mem_filterMap.2 ⟨a, mem, is_mark⟩
    rw [bare] at listed
    cases listed

/-- Attributes that change nothing of what they are called and of what they mark leave the marks in
place, and so do attributes that are no marks. -/
theorem Markable.of_changes {base added : List Attribute} (h : c.Markable p)
    (grown : c.pool.GrowsTo c'.pool) (sound : c.pool.Sound)
    (whole : c'.attributes = base ++ added)
    (changes : List.Forall₂ (fun a a' => a'.name = a.name ∧ a'.body.name? = a.body.name? ∧
      a'.body.mark? = a.body.mark?) c.attributes base)
    (others : ∀ a ∈ added, a.Labelled p ∧ a.body.mark? = none) : c'.Markable p where
  few := by
    have same : base.map (·.body.mark?) = c.attributes.map (·.body.mark?) :=
      map_eq_of_forall₂ changes fun _ _ ⟨_, _, mark⟩ => mark
    have none : added.filterMap (·.body.mark?) = [] :=
      List.filterMap_eq_nil_iff.2 fun a mem => (others a mem).2
    have marks : c'.marks = c.marks := by
      have joined (as : List Attribute) :
          as.filterMap (·.body.mark?) = (as.map (·.body.mark?)).filterMap id := by
        rw [List.filterMap_map]
        rfl
      rw [marks, marks, whole, List.filterMap_append, none, List.append_nil, joined, same, joined]
    rw [marks]
    exact h.few
  labelled a' mem := by
    rw [whole] at mem
    rcases List.mem_append.1 mem with mem | mem
    · obtain ⟨a, old, name, body, -⟩ := forall₂_mem_right changes mem
      obtain ⟨text, named, labelled⟩ := h.labelled a old
      exact ⟨text, name ▸ named, body ▸ labelled⟩
    · exact (others a' mem).1
  placed a' mem mark := by
    rw [whole] at mem
    rcases List.mem_append.1 mem with mem | mem
    · obtain ⟨a, old, name, -, same⟩ := forall₂_mem_right changes mem
      rw [name]
      exact sound.lookup_mono (grown.sound sound) grown.keeps (by simp)
        (h.placed a old (same ▸ mark))
    · rw [(others a' mem).2] at mark
      cases mark

theorem Markable.of_same (h : c.Markable p) (grown : c.pool.GrowsTo c'.pool) (sound : c.pool.Sound)
    (same : c'.attributes = c.attributes) : c'.Markable p :=
  h.of_changes grown sound (by rw [same, List.append_nil])
    (List.forall₂_same.2 fun _ _ => ⟨rfl, rfl, rfl⟩) (List.forall_mem_nil _)

theorem Markable.mono (h : c.Markable p) (later : p.Extends q) : c.Markable q :=
  ⟨h.few, fun a mem => (h.labelled a mem).mono later, h.placed⟩

end ClassFile

/-- The site bears the marks of its class file. -/
theorem ClassSite.woven?_of_marks {s : ClassSite} {stamp : WovenStamp} {name : String}
    (marks : s.classFile.marks = [stamp]) (named : s.pool.utf8 stamp.injector = .ok name) :
    s.woven? = some ⟨name, stamp.modified⟩ := by
  have found : s.woven? = s.classFile.marks.findSome? fun stamp =>
      (s.pool.utf8? stamp.injector).map (⟨·, stamp.modified⟩) := by
    unfold woven? ClassFile.marks
    induction s.classFile.attributes with
    | nil => rfl
    | cons a attributes ih =>
      rw [List.findSome?_cons, List.filterMap_cons, ih]
      cases a.body <;> rfl
  rw [found, marks]
  simp [Pool.utf8?, named, Except.toOption]

namespace Weave

variable {c c' : ClassFile} {plan : Plan} {owner : ClassName}

/-! ## Marking -/

section Updates

variable {α β : Type} {keep : α → Bool} {f : α → α} {g : α → Option β} {as : List α}

/-- The one element that is updated is the one that is listed. -/
theorem filterMap_updateFirst {b : β} (few : (as.filterMap g).length ≤ 1)
    (listed : ∀ a ∈ as, keep a = (g a).isSome) (made : ∀ a, g (f a) = some b)
    (found : as.any keep = true) : (updateFirst keep f as).filterMap g = [b] := by
  induction as with
  | nil => cases found
  | cons a as ih =>
    have kept := listed a List.mem_cons_self
    unfold updateFirst
    cases is_listed : g a with
    | some b' =>
      rw [List.filterMap_cons_some is_listed, List.length_cons] at few
      rw [if_pos (by rw [kept, is_listed]; rfl), List.filterMap_cons_some (made a),
        List.length_eq_zero_iff.1 (Nat.le_zero.1 (Nat.le_of_succ_le_succ few))]
    | none =>
      rw [is_listed] at kept
      rw [List.filterMap_cons_none is_listed] at few
      rw [List.any_cons, kept] at found
      rw [if_neg (by simp [kept]), List.filterMap_cons_none is_listed]
      exact ih few (fun a' mem => listed a' (List.mem_cons_of_mem a mem)) found

end Updates

/-- Members of the nest are no marks. -/
theorem markable_addNestMembers {members : List UInt16} (h : c.Markable p) (sound : c.pool.Sound)
    (grown : (addNestMembers members c).pool.Extends p) (small : p.size < 65536) :
    (addNestMembers members c).Markable p := by
  have pool := (addNestMembers_marked members c : Marked {} c _).keeps.pool
  unfold addNestMembers at grown pool ⊢
  dsimp only at grown pool ⊢
  split
  · refine h.of_changes (.refl _) sound (List.append_nil _).symm ?_ (List.forall_mem_nil _)
    refine (forall₂_updateFirst c.attributes).imp fun a a' change => ?_
    rcases change with rfl | ⟨extended, rfl⟩
    · exact ⟨rfl, rfl, rfl⟩
    · obtain ⟨name, body⟩ := a
      cases body <;> exact ⟨rfl, rfl, rfl⟩
  · rename_i absent
    rw [if_neg absent] at grown pool
    refine h.of_changes pool sound rfl (List.forall₂_same.2 fun _ _ => ⟨rfl, rfl, rfl⟩) fun a mem => ?_
    rw [List.mem_singleton.1 mem]
    have held := (Pool.holds_addUtf8 sound "NestMembers").mono grown
    exact ⟨⟨_, held.utf8 (by omega), .inl rfl⟩, rfl⟩

/-- The marks of a class are the attributes with the name of marks. -/
theorem isSome_mark_of_interned (h : c.Markable p) (sound : c.pool.Sound) {index : UInt16}
    (interned : Pool.addUtf8 "classweave.Woven" c.pool = (index, q)) (grown : q.Extends p)
    (small : p.size < 65536) : ∀ a ∈ c.attributes, (a.name == index) = a.body.mark?.isSome := by
  have pool := (Pool.grows_addUtf8 "classweave.Woven").made interned
  have held := Pool.holds_addUtf8 sound "classweave.Woven"
  have known : (Pool.addUtf8 "classweave.Woven" c.pool).2.lookup[Constant.utf8 "classweave.Woven"]? =
      some (Pool.addUtf8 "classweave.Woven" c.pool).1 := Pool.lookup_intern _ _
  rw [interned] at held known
  intro a mem
  rw [Bool.eq_iff_iff, beq_iff_eq]
  constructor
  · intro same
    exact (h.labelled a mem).mark?_isSome.2 (same ▸ (held.mono grown).utf8 (by omega))
  · intro mark
    have first := sound.lookup_mono (pool.sound sound) pool.keeps (by simp) (h.placed a mem mark)
    exact Option.some.inj (first.symm.trans known)

/-- A mark that is set is the only one. -/
theorem marks_setMark (stamp : WovenStamp) (h : c.Markable p) (sound : c.pool.Sound)
    (grown : (c.setAttribute "classweave.Woven" (.woven stamp)).pool.Extends p)
    (small : p.size < 65536) :
    (c.setAttribute "classweave.Woven" (.woven stamp)).marks = [stamp] ∧
      (c.setAttribute "classweave.Woven" (.woven stamp)).Markable p := by
  have held := Pool.holds_addUtf8 sound "classweave.Woven"
  have known : (Pool.addUtf8 "classweave.Woven" c.pool).2.lookup[Constant.utf8 "classweave.Woven"]? =
      some (Pool.addUtf8 "classweave.Woven" c.pool).1 := Pool.lookup_intern _ _
  unfold ClassFile.setAttribute at grown ⊢
  dsimp only at grown ⊢
  generalize interned : Pool.addUtf8 "classweave.Woven" c.pool = added at held known grown ⊢
  obtain ⟨index, q⟩ := added
  dsimp only at grown ⊢
  have listed := isSome_mark_of_interned h sound interned grown small
  have label : Attribute.Labelled p ⟨index, .woven stamp⟩ :=
    ⟨_, (held.mono grown).utf8 (by omega), .inl rfl⟩
  have old {a : Attribute} (mem : a ∈ c.attributes) (mark : a.body.mark?.isSome = true) :
      q.lookup[Constant.utf8 "classweave.Woven"]? = some a.name := by
    rw [known, beq_iff_eq.1 ((listed a mem).trans mark)]
  split
  · rename_i found
    have marks : (updateFirst (·.name == index) (fun a => { a with body := .woven stamp })
        c.attributes).filterMap (·.body.mark?) = [stamp] :=
      filterMap_updateFirst h.few listed (fun _ => rfl) found
    refine ⟨marks, Nat.le_of_eq (congrArg List.length marks), fun a' mem => ?_, fun a' mem mark => ?_⟩
    · rcases updateFirst_mem mem with mem | ⟨a, mem, same, rfl⟩
      · exact h.labelled a' mem
      · exact beq_iff_eq.1 same ▸ label
    · rcases updateFirst_mem mem with mem | ⟨a, mem, same, rfl⟩
      · exact old mem mark
      · exact beq_iff_eq.1 same ▸ known
  · rename_i absent
    have none : c.attributes.filterMap (·.body.mark?) = [] := by
      refine List.filterMap_eq_nil_iff.2 fun a mem => Option.not_isSome_iff_eq_none.1 fun mark => ?_
      exact absent (List.any_eq_true.2 ⟨a, mem, (listed a mem).trans mark⟩)
    have marks :
        (c.attributes ++ [(⟨index, .woven stamp⟩ : Attribute)]).filterMap (·.body.mark?) = [stamp] := by
      rw [List.filterMap_append, none]
      rfl
    refine ⟨marks, Nat.le_of_eq (congrArg List.length marks), fun a mem => ?_, fun a mem mark => ?_⟩
    · rcases List.mem_append.1 mem with mem | mem
      · exact h.labelled a mem
      · exact List.mem_singleton.1 mem ▸ label
    · rcases List.mem_append.1 mem with mem | mem
      · exact old mem mark
      · rw [List.mem_singleton.1 mem]
        exact known

/-! ## Weaving -/

namespace Plan

variable (options) in
/-- Until helpers are listed, weaving leaves the attributes of the class alone. -/
theorem attributes_of_weave (h : plan.weave owner c = .ok () c') (sound : c.pool.Sound) :
    ∃ c₁ c₂, Keeps options c c₁ ∧ c₁.attributes = c.attributes ∧
      plan.nestHelpers c₁ = .ok () c₂ ∧ plan.stampClass c₂ = .ok () c' := by
  obtain ⟨c₁, c₂, c₃, c₄, c₅, c₆, stages⟩ := stages_of_weave options h sound
  exact ⟨c₅, c₆, stages.keepsTo₄.trans stages.keeps₅, stages.attributes, stages.nested,
    stages.stamped⟩

theorem markable_nestHelpers (h : plan.nestHelpers c = .ok () c') (before : c.Markable p)
    (sound : c.pool.Sound) (grown : c'.pool.Extends p) (small : p.size < 65536) :
    c'.Markable p := by
  rcases nestHelpers_eq_ok h with ⟨-, rfl⟩ | ⟨-, q, members, pool, -, rfl⟩
  · exact before
  · have listed : ClassFile.Markable p { c with pool := q } := before.of_same pool sound rfl
    exact markable_addNestMembers listed (pool.sound sound) grown small

theorem marks_stampClass {name : String} (stamp : plan.options.stamp = some name)
    (h : plan.stampClass c = .ok () c') (before : c.Markable p) (sound : c.pool.Sound)
    (grown : c'.pool.Extends p) (small : p.size < 65536) :
    c'.Markable p ∧
      ∃ index, c'.marks = [⟨index, !plan.isEmpty⟩] ∧ c'.pool.Holds index (.utf8 name) := by
  rcases stampClass_eq_ok h with ⟨none, -⟩ | ⟨other, some, rfl⟩
  · cases none.symm.trans stamp
  cases some.symm.trans stamp
  have pool := Pool.grows_addUtf8 name c.pool
  have held := Pool.holds_addUtf8 sound name
  have again : ClassFile.Markable p { c with pool := (Pool.addUtf8 name c.pool).2 } :=
    before.of_same pool sound rfl
  obtain ⟨marks, markable⟩ := marks_setMark ⟨_, !plan.isEmpty⟩ again (pool.sound sound) grown small
  exact ⟨markable, _, marks, held.mono (Pool.grows_addUtf8 "classweave.Woven" _).keeps⟩

/-- A class that is woven for an injector bears the mark of that injector alone. -/
theorem marks_of_weave {name : String} (stamp : plan.options.stamp = some name)
    (h : plan.weave owner c = .ok () c') (sound : c.pool.Sound) (before : c.Markable c.pool)
    (small : c'.pool.size < 65536) :
    c'.Markable c'.pool ∧
      ∃ index, c'.marks = [⟨index, !plan.isEmpty⟩] ∧ c'.pool.Holds index (.utf8 name) := by
  obtain ⟨c₁, c₂, keeps, same, nested, stamped⟩ := attributes_of_weave {} h sound
  have sound₁ := keeps.pool.sound sound
  have nesting := (nestHelpers_marked {} nested).keeps.pool
  have stamping := (stampClass_marked {} stamped).keeps.pool
  have start : c₁.Markable c'.pool := (before.of_same keeps.pool sound same).mono
    (keeps.pool.trans (nesting.trans stamping)).keeps
  exact marks_stampClass stamp stamped
    (markable_nestHelpers nested start sound₁ stamping.keeps small) (nesting.sound sound₁) (.refl _)
    small

/-- What a plan of an injector makes of an image is the image of a site that bears the mark of that
injector alone. -/
theorem marked_of_apply {name : String} (stamp : plan.options.stamp = some name) {decoding : Nat}
    {image : Bytes} {s : ClassSite} {images : WovenImages}
    (site : ClassSite.ofBytes options decoding image = .ok s) (suits : plan.Suits s)
    (spelled : plan.Spelled) (applied : plan.apply s = .ok images)
    (before : s.classFile.Markable s.pool) (again : Nat) :
    ∃ s', ClassSite.ofBytes options again images.primary = .ok s' ∧
      s'.classFile.Markable s'.pool ∧ s'.woven? = some ⟨name, !plan.isEmpty⟩ := by
  obtain ⟨c, decoded, lists⟩ := ClassSite.lists_of_ofBytes site
  have described := ClassSite.described_of_ofBytes site
  obtain ⟨c', woven, written, -⟩ := apply_eq_ok applied
  rw [lists.classFile] at woven described
  have whole := ClassFile.decoded_of_ofBytes decoded
  have keeps := (weave_eq_ok woven suits lists whole).1
  have readable := keeps.readable whole.readable
  obtain ⟨s', reread⟩ := ClassSite.exists_ofBytes readable
    (described_of_weave woven suits lists whole spelled described) written again
  obtain ⟨small, q, same, read⟩ := ClassFile.ofBytes_toBytes readable written
  obtain ⟨c'', read', lists'⟩ := ClassSite.lists_of_ofBytes reread
  cases read.symm.trans read'
  have sound' := (ClassFile.decoded_of_ofBytes read).readable.pool
  obtain ⟨markable, index, marks, held⟩ := marks_of_weave stamp woven whole.readable.pool
    (by rwa [ClassSite.pool, lists.classFile] at before) small
  have grown : c'.pool.GrowsTo q := ⟨.of_entries same, fun _ => sound'⟩
  have marks' : s'.classFile.marks = [⟨index, !plan.isEmpty⟩] := by
    rw [lists'.classFile]
    exact marks
  refine ⟨s', reread, ?_, ClassSite.woven?_of_marks marks' ?_⟩
  · have again : ClassFile.Markable c'.pool { c' with pool := q } :=
      markable.of_same grown readable.pool rfl
    rw [ClassSite.pool, lists'.classFile]
    exact again.mono grown.keeps
  · rw [ClassSite.pool, lists'.classFile]
    exact (held.mono grown.keeps).utf8 (by rw [Pool.size, same]; exact Nat.le_of_lt small)

/-- A plan is for the options that were planned with. -/
theorem options_of_ofComposition {σ : Type} {weaving : Options} {composition : Composition σ}
    {l l' : Ledger σ} (h : ofComposition weaving composition l = .ok plan l') :
    plan.options = weaving := by
  obtain ⟨declared, is, s₁, s₂, s, -, -, -, rfl, -⟩ := ofComposition_eq_ok h
  rfl

end Plan

end Weave

end Weft
