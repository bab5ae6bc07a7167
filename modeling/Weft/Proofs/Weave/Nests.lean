import Weft.Proofs.Weave.Accessors
import Weft.Proofs.Weave.Marks

/-!
# Nests of woven classes

Whether helpers join the nest of their class is asked twice, of the class before it is woven and of
the class that is woven so far; the answers agree. If they join it, the woven class lists each helper
behind the members that it had, and each helper names the class as its host. If not, the class lists
what it listed and no helper names a host.
-/

namespace Weft

variable {options : DecodeOptions} {p q : Pool}

/-! ## What classes say of nests -/

/-- The members of the nest that the body lists. -/
def AttributeBody.nestMembers? : AttributeBody → Option (List UInt16)
  | .nestMembers members => some members
  | _ => none

/-- The host of the nest that the body names. -/
def AttributeBody.nestHost? : AttributeBody → Option UInt16
  | .nestHost host => some host
  | _ => none

theorem AttributeBody.nestMembers?_of_mark {body : AttributeBody} (h : body.mark?.isSome = true) :
    body.nestMembers? = none := by
  cases body <;> first | rfl | cases h

/-- Nothing but a list of members is called so. -/
theorem Attribute.Labelled.of_nestMembers {a : Attribute} (h : a.Labelled p) {members : List UInt16}
    (listed : a.body.nestMembers? = some members) (more : List UInt16) :
    Attribute.Labelled p ⟨a.name, .nestMembers more⟩ := by
  obtain ⟨text, named, labelled⟩ := h
  obtain ⟨name, body⟩ := a
  cases body <;> cases listed
  exact ⟨text, named, labelled⟩

namespace ClassFile

variable {c c' : ClassFile}

/-- The members of the nest that the class lists first. -/
def nestMembers (c : ClassFile) : List UInt16 :=
  (c.attributes.findSome? (·.body.nestMembers?)).getD []

/-- The hosts of the nest that the class names. -/
def nestHosts (c : ClassFile) : List UInt16 := c.attributes.filterMap (·.body.nestHost?)

/-- Attributes that list no members leave those that are listed. -/
theorem nestMembers_of_changes {base added : List Attribute} (whole : c'.attributes = base ++ added)
    (changes : List.Forall₂ (fun a a' => a'.body.nestMembers? = a.body.nestMembers?)
      c.attributes base) (others : ∀ a ∈ added, a.body.nestMembers? = none) :
    c'.nestMembers = c.nestMembers := by
  have bodies : base.map (·.body.nestMembers?) = c.attributes.map (·.body.nestMembers?) :=
    map_eq_of_forall₂ changes fun _ _ same => same
  have joined (as : List Attribute) : as.findSome? (·.body.nestMembers?) =
      (as.map (·.body.nestMembers?)).findSome? id := by
    rw [List.findSome?_map]
    rfl
  rw [nestMembers, nestMembers, whole, List.findSome?_append, List.findSome?_eq_none_iff.2 others,
    Option.or_none, joined, bodies, ← joined]

end ClassFile

namespace Weave

variable {c c' : ClassFile} {plan : Plan} {owner : ClassName}

/-! ## The woven class -/

section Updates

variable {α β : Type} {keep : α → Bool} {f : α → α} {g : α → Option β}

/-- The first element that tells something is the one that is updated. -/
theorem findSome?_updateFirst (extend : β → β) {as : List α} (told : ∀ a ∈ as, keep a = (g a).isSome)
    (made : ∀ a ∈ as, g (f a) = (g a).map extend) :
    (updateFirst keep f as).findSome? g = (as.findSome? g).map extend := by
  induction as with
  | nil => rfl
  | cons a as ih =>
    have kept := told a List.mem_cons_self
    unfold updateFirst
    cases tells : g a with
    | some b =>
      have changed := made a List.mem_cons_self
      rw [tells] at changed
      rw [if_pos (by rw [kept, tells]; rfl), List.findSome?_cons, List.findSome?_cons, changed, tells]
      rfl
    | none =>
      rw [if_neg (by simp [kept, tells]), List.findSome?_cons, List.findSome?_cons, tells]
      exact ih (fun a' mem => told a' (List.mem_cons_of_mem a mem))
        fun a' mem => made a' (List.mem_cons_of_mem a mem)

end Updates

/-- Members are added behind those that are listed first. -/
theorem nestMembers_addNestMembers (members : List UInt16) (c : ClassFile) :
    (addNestMembers members c).nestMembers = c.nestMembers ++ members := by
  unfold addNestMembers ClassFile.nestMembers
  dsimp only
  split
  · rename_i some_list
    rw [findSome?_updateFirst (· ++ members)]
    · cases listed : c.attributes.findSome? (·.body.nestMembers?) with
      | some old => rfl
      | none =>
        obtain ⟨⟨name, body⟩, mem, tells⟩ := List.any_eq_true.1 some_list
        have silent := List.findSome?_eq_none_iff.1 listed _ mem
        cases body with
        | nestMembers old => exact absurd silent (by simp [AttributeBody.nestMembers?])
        | _ => cases tells
    · rintro ⟨name, body⟩ -
      cases body <;> rfl
    · rintro ⟨name, body⟩ -
      cases body <;> rfl
  · rename_i absent
    have none : c.attributes.findSome? (·.body.nestMembers?) = none := by
      refine List.findSome?_eq_none_iff.2 ?_
      rintro ⟨name, body⟩ mem
      cases body with
      | nestMembers old => exact absurd (List.any_eq_true.2 ⟨_, mem, rfl⟩) absent
      | _ => rfl
    show ((c.attributes ++ [_]).findSome? fun a : Attribute => a.body.nestMembers?).getD [] = _
    rw [List.findSome?_append, none]
    rfl

theorem labelled_addNestMembers {members : List UInt16}
    (labelled : ∀ a ∈ c.attributes, a.Labelled p) (sound : c.pool.Sound)
    (grown : (addNestMembers members c).pool.Extends p) (small : p.size < 65536) :
    ∀ a ∈ (addNestMembers members c).attributes, a.Labelled p := by
  unfold addNestMembers at grown ⊢
  dsimp only at grown ⊢
  split
  · intro a' mem
    rcases updateFirst_mem mem with old | ⟨⟨name, body⟩, old, extended, rfl⟩
    · exact labelled a' old
    · have known := labelled _ old
      cases body <;> try cases extended
      exact known.of_nestMembers rfl _
  · rename_i absent
    rw [if_neg absent] at grown
    intro a mem
    rcases List.mem_append.1 mem with mem | mem
    · exact labelled a mem
    · rw [List.mem_singleton.1 mem]
      exact ⟨_, ((Pool.holds_addUtf8 sound "NestMembers").mono grown).utf8 small.le, .inl rfl⟩

/-- The mark of an injector takes the place of no list of members. -/
theorem nestMembers_setMark (stamp : WovenStamp) (labelled : ∀ a ∈ c.attributes, a.Labelled p)
    (sound : c.pool.Sound)
    (grown : (c.setAttribute "classweave.Woven" (.woven stamp)).pool.Extends p)
    (small : p.size < 65536) :
    (c.setAttribute "classweave.Woven" (.woven stamp)).nestMembers = c.nestMembers := by
  have held := Pool.holds_addUtf8 sound "classweave.Woven"
  unfold ClassFile.setAttribute at grown ⊢
  dsimp only at grown ⊢
  generalize Pool.addUtf8 "classweave.Woven" c.pool = added at held grown ⊢
  obtain ⟨index, q⟩ := added
  dsimp only at grown ⊢
  have named : p.utf8 index = .ok "classweave.Woven" := (held.mono grown).utf8 small.le
  split
  · refine ClassFile.nestMembers_of_changes (List.append_nil _).symm ?_ (List.forall_mem_nil _)
    refine ((List.forall₂_and_left _ _).2 ⟨labelled, forall₂_updateFirst c.attributes⟩).imp ?_
    rintro a a' ⟨known, change⟩
    rcases change with rfl | ⟨same, rfl⟩
    · rfl
    · have mark := known.mark?_isSome.2 (beq_iff_eq.1 same ▸ named)
      exact (AttributeBody.nestMembers?_of_mark mark).symm
  · exact ClassFile.nestMembers_of_changes rfl (List.forall₂_same.2 fun _ _ => rfl)
      (List.forall_mem_singleton.2 rfl)

namespace Plan

/-- The woven class lists those members behind the ones that it had: the helpers if they join its
nest, and else none. -/
def ListsMembers (plan : Plan) (c : ClassFile) (p : Pool) (listed : List UInt16) : Prop :=
  if plan.nests c then
    List.Forall₂ (fun h member => p.HoldsClass member h.name.internal) plan.helpers listed
  else listed = []

theorem ListsMembers.mono {listed : List UInt16} (h : plan.ListsMembers c p listed)
    (grown : p.Extends q) : plan.ListsMembers c q listed := by
  unfold ListsMembers at h ⊢
  split
  · rename_i joined
    rw [if_pos joined] at h
    exact h.imp fun _ _ held => held.mono grown
  · rename_i apart
    rwa [if_neg apart] at h

/-- What is asked before weaving is asked again when the helpers are listed. -/
theorem nests_congr (version : c'.majorVersion = c.majorVersion)
    (attributes : c'.attributes = c.attributes) : plan.nests c' = plan.nests c := by
  unfold nests hostsNest ClassFile.hasNestHost
  rw [version, attributes]

theorem nestHelpers_lists (h : plan.nestHelpers c = .ok () c') (sound : c.pool.Sound)
    (labelled : ∀ a ∈ c.attributes, a.Labelled p) (grown : c'.pool.Extends p)
    (small : p.size < 65536) : (∀ a ∈ c'.attributes, a.Labelled p) ∧
      ∃ listed, c'.nestMembers = c.nestMembers ++ listed ∧ plan.ListsMembers c c'.pool listed := by
  rcases nestHelpers_eq_ok h with ⟨apart, rfl⟩ | ⟨joined, q, members, pool, held, rfl⟩
  · exact ⟨labelled, [], (List.append_nil _).symm,
      by rw [ListsMembers, if_neg (Bool.eq_false_iff.1 apart)]⟩
  · have listing := (addNestMembers_marked members { c with pool := q } : Marked {} _ _).keeps.pool
    refine ⟨labelled_addNestMembers (c := { c with pool := q }) labelled (pool.sound sound) grown
      small, members, nestMembers_addNestMembers members _, ?_⟩
    rw [ListsMembers, if_pos joined]
    exact (held sound).imp fun _ _ held => held.mono listing.keeps

theorem stampClass_nestMembers (h : plan.stampClass c = .ok () c') (sound : c.pool.Sound)
    (labelled : ∀ a ∈ c.attributes, a.Labelled p) (grown : c'.pool.Extends p)
    (small : p.size < 65536) : c'.nestMembers = c.nestMembers := by
  rcases stampClass_eq_ok h with ⟨-, rfl⟩ | ⟨name, -, rfl⟩
  · rfl
  · have pool := Pool.grows_addUtf8 name c.pool
    exact nestMembers_setMark (c := { c with pool := _ }) _ labelled (pool.sound sound) grown small

/-- Of the members of nests, weaving changes nothing but what it lists behind them. -/
theorem nestMembers_of_weave (h : plan.weave owner c = .ok () c') (sound : c.pool.Sound)
    (labelled : ∀ a ∈ c.attributes, a.Labelled c.pool) (small : c'.pool.size < 65536) :
    ∃ listed, c'.nestMembers = c.nestMembers ++ listed ∧ plan.ListsMembers c c'.pool listed := by
  obtain ⟨c₁, c₂, keeps, same, nested, stamped⟩ := attributes_of_weave {} h sound
  have sound₁ := keeps.pool.sound sound
  have nesting := (nestHelpers_marked {} nested).keeps.pool
  have stamping := (stampClass_marked {} stamped).keeps.pool
  have start : ∀ a ∈ c₁.attributes, a.Labelled c'.pool := fun a mem =>
    (labelled a (same ▸ mem)).mono (keeps.pool.trans (nesting.trans stamping)).keeps
  obtain ⟨labelled₂, listed, members, lists⟩ :=
    nestHelpers_lists nested sound₁ start stamping.keeps small
  refine ⟨listed, ?_, ?_⟩
  · rw [stampClass_nestMembers stamped (nesting.sound sound₁) labelled₂ (.refl _) small, members,
      ClassFile.nestMembers, same, ClassFile.nestMembers]
  · have lists := lists.mono stamping.keeps
    rwa [ListsMembers, nests_congr keeps.majorVersion same] at lists

end Plan

/-! ## Helper classes -/

section Attributes

variable {attributes : List Attribute}

theorem editPool_attributes {α : Type} (edit : Edit Pool α) :
    Maintains (fun c : ClassFile => c.attributes = attributes) (editPool edit) fun _ => True where
  ok c a c' before done := by
    obtain ⟨q, -, rfl⟩ := editPool_eq_ok done
    exact ⟨before, trivial⟩
  error c e c' before done := by
    unfold editPool Edit.zoom at done
    split at done <;> cases done
    exact before

theorem pushFields_attributes (fields : List Member) :
    Maintains (fun c : ClassFile => c.attributes = attributes) (pushFields fields) fun _ => True :=
  .modify fun _ => id

theorem pushMethod_attributes (edit : Edit Pool Member) :
    Maintains (fun c : ClassFile => c.attributes = attributes) (pushMethod edit) fun _ => True :=
  (editPool_attributes edit).bind fun _ _ => .modify fun _ => id

/-- The members of a helper come without attributes of the class. -/
theorem Helper.pushMembers_attributes (owner : ClassName) (h : Helper) :
    Maintains (fun c : ClassFile => c.attributes = attributes) (h.pushMembers owner)
      fun _ => True := by
  have access (field : String) (t : JType) (isFinal : Bool) :
      Maintains (fun c : ClassFile => c.attributes = attributes)
        (h.pushFieldAccess owner field t isFinal) fun _ => True :=
    (editPool_attributes _).bind fun m _ => (pushFields_attributes [m]).bind fun _ _ =>
      (pushMethod_attributes _).bind fun _ _ => (pushMethod_attributes _).bind fun _ _ =>
        pushMethod_attributes _
  unfold pushMembers
  refine .ite (fun _ => (editPool_attributes _).bind fun m _ =>
    (pushFields_attributes [m]).bind fun _ _ => ?_) fun _ => ?_
  all_goals
    refine (pushMethod_attributes _).bind fun _ _ => ?_
    cases h.kind with
    | field name t isStatic isFinal => exact access name t isFinal
    | call name d isStatic => exact pushMethod_attributes _
    | method name d isStatic => exact pushMethod_attributes _

end Attributes

/-- The class names the owner as the host of its nest, if it joins that, and else none. -/
def NamesHost (owner : ClassName) (joined : Bool) (c : ClassFile) : Prop :=
  if joined then ∃ host, c.nestHosts = [host] ∧ c.pool.HoldsClass host owner.internal
  else c.nestHosts = []

theorem NamesHost.mono {joined : Bool} (h : NamesHost owner joined c)
    (grown : c.pool.Extends q) : NamesHost owner joined { c with pool := q } := by
  unfold NamesHost at h ⊢
  split
  · rename_i yes
    rw [if_pos yes] at h
    obtain ⟨host, only, held⟩ := h
    exact ⟨host, only, held.mono grown⟩
  · rename_i no
    rwa [if_neg no] at h

theorem Helper.namesHost_of_classFile {h : Helper} {majorVersion : UInt16} {nested : Bool}
    (made : h.classFile owner majorVersion nested = .ok c) : NamesHost owner nested c := by
  obtain ⟨bare, full, start, pushed, rfl⟩ := classFile_eq_ok {} made
  have none : full.attributes = [] :=
    ((h.pushMembers_attributes owner).ok _ _ _ start.attributes pushed).1
  have sound := (pushMembers_enlarges {} pushed).keeps.pool.sound start.pool
  cases nested with
  | false =>
    show full.attributes.filterMap _ = []
    rw [none]
    rfl
  | true =>
    refine ⟨_, ?_, (Pool.holds_addClass sound owner.internal).mono
      (Pool.grows_addUtf8 "NestHost" _).keeps⟩
    show (full.attributes ++ [_]).filterMap (fun a : Attribute => a.body.nestHost?) = _
    rw [none]
    rfl

namespace Plan

variable {σ : Type} {composition : Composition σ} {weaving : Options} {l l' : Ledger σ}
  {image : Bytes} {decoding again : Nat} {s : ClassSite} {images : WovenImages}

/-- The images of a plan agree about the nest: either the woven class lists each helper once behind
the members that it had, and each helper names it as host, or it lists what it listed and no helper
names a host. -/
theorem nests_of_apply (planned : ofComposition weaving composition l = .ok plan l')
    (site : ClassSite.ofBytes options decoding image = .ok composition.site)
    (site' : ClassSite.ofBytes options again image = .ok s) (applied : plan.apply s = .ok images) :
    ∃ c w listed, ClassFile.ofBytes options image = .ok c ∧
      ClassFile.ofBytes options images.primary = .ok w ∧
      w.nestMembers = c.nestMembers ++ listed ∧ plan.ListsMembers c w.pool listed ∧
      (plan.helpers.map (·.name)).Nodup ∧
      List.Forall₂ (fun h image => image.1 = h.name ∧ ∃ helper,
        ClassFile.ofBytes options image.2 = .ok helper ∧
          NamesHost composition.site.name (plan.nests c) helper) plan.helpers images.helpers := by
  obtain ⟨c, c', q, decoded, lists, woven, grown, small, read⟩ := woven_of_apply site site' applied
  have whole := ClassFile.decoded_of_ofBytes decoded
  have keeps := (keeps_of_weave options woven whole.readable.pool).1
  obtain ⟨listed, members, listing⟩ := nestMembers_of_weave woven whole.readable.pool whole.labelled
    (Nat.lt_of_le_of_lt grown.size_le small)
  refine ⟨c, _, listed, decoded, read, members, listing.mono grown,
    (helpers_of_ofComposition planned).1.nodup, ?_⟩
  cases site'.symm.trans (ClassSite.ofBytes_again site again)
  obtain ⟨c₁, woven₁, -, made⟩ := apply_eq_ok applied
  dsimp only at woven woven₁ made
  rw [lists.classFile] at woven₁ made
  cases woven.symm.trans woven₁
  have version := (keeps.readable whole.readable).version
  refine made.imp fun h image ⟨named, helper, emitted, written⟩ => ⟨named, ?_⟩
  have readable := (Helper.readable_classFile options version emitted).1
  obtain ⟨-, r, same, read⟩ := ClassFile.ofBytes_toBytes readable written
  exact ⟨_, read, (Helper.namesHost_of_classFile emitted).mono (.of_entries same)⟩

end Plan

end Weave

end Weft
