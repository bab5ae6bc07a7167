import Weft.Proofs.Site.Keys
import Weft.Proofs.Weave.Additions
import Weft.Proofs.Weave.Initialization
import Weft.Proofs.Weave.Planning

/-!
# Weaving keeps what it is not asked to change

Where weaving a class gives an image, the class that is read from the image has all that the class
had, at its place. Methods that are intercepted or that initialize planned fields have other code;
the code of an intercepted method is found, as it was, in one method that is appended.
-/

namespace Weft

variable {options : DecodeOptions} {p q : Pool} {owner : ClassName}

namespace Weave

variable {c c' : ClassFile} {plan : Plan}

/-! ## Methods that stay in place -/

/-- What a woven class has in the place of a method. -/
inductive IsKept (plan : Plan) (owner : ClassName) (p : Pool) (n : Nat) (m : Member) : Member → Prop
  | same : IsKept plan owner p n m m
  | intercepted (i : PlannedIntercept) (planned : i ∈ plan.intercepts)
      (here : i.site.index.toNat = n) (code : CodeAttribute) :
      IsKept plan owner p n m (PlannedIntercept.rewrapped m code)
  | constructor (pending : pendingFields false plan.fields ≠ [])
      (named : p.utf8 m.name = .ok "<init>") (calls_super : ¬ Delegates p owner m)
      (code : CodeAttribute) : IsKept plan owner p n m (m.setCode code)
  | initializer (pending : pendingFields true plan.fields ≠ [])
      (named : m.isNamed p "<clinit>" plainDescriptor.descriptor = true) (code : CodeAttribute) :
      IsKept plan owner p n m (m.setCode code)

theorem IsInitialized.of_extends {m m' : Member} {name : String} (h : IsInitialized q owner m m')
    (grown : p.Extends q) (named : p.utf8 m.name = .ok name) :
    name = "<init>" ∧ ¬ Delegates p owner m ∧ ∃ code, m' = m.setCode code := by
  obtain ⟨special, calls_super, changed⟩ := h
  rw [Pool.utf8_mono grown named] at special
  exact ⟨Except.ok.inj special, fun delegates => calls_super (delegates.mono grown), changed⟩

theorem IsClassInitialized.of_extends {m m' : Member} {name descriptor : String}
    (h : IsClassInitialized q m m') (grown : p.Extends q) (named : p.utf8 m.name = .ok name)
    (typed : p.utf8 m.descriptor = .ok descriptor) : name = "<clinit>" ∧
      m.isNamed p "<clinit>" plainDescriptor.descriptor = true ∧ ∃ code, m' = m.setCode code := by
  obtain ⟨special, changed⟩ := h
  obtain ⟨name_eq, type_eq⟩ := Member.isNamed_iff.1 special
  rw [Pool.utf8_mono grown named] at name_eq
  rw [Pool.utf8_mono grown typed] at type_eq
  cases name_eq
  cases type_eq
  exact ⟨rfl, Member.isNamed_iff.2 ⟨named, typed⟩, changed⟩

/-- A method is changed by one step of weaving at most: interceptions leave out methods that
initialize, and no method is both a constructor and the class initializer. -/
theorem isKept_of_steps {r : Pool} {n : Nat} {m m₁ m₂ m₃ : Member} {name descriptor : String}
    (named : p.utf8 m.name = .ok name) (typed : p.utf8 m.descriptor = .ok descriptor)
    (first : m₁ = m ∨ ∃ i ∈ plan.intercepts, i.site.index.toNat = n ∧ name ≠ "<init>" ∧
      name ≠ "<clinit>" ∧ ∃ code, m₁ = PlannedIntercept.rewrapped m code)
    (second : m₂ = m₁ ∨ (pendingFields false plan.fields ≠ [] ∧ ∃ q, p.Extends q ∧
      IsInitialized q owner m₁ m₂))
    (third : m₃ = m₂ ∨ (pendingFields true plan.fields ≠ [] ∧ IsClassInitialized r m₂ m₃))
    (grown : p.Extends r) :
    m₃.name = m.name ∧ m₃.descriptor = m.descriptor ∧ IsKept plan owner p n m m₃ := by
  rcases first with rfl | ⟨i, planned, here, not_constructor, not_initializer, code, rfl⟩
  · rcases second with rfl | ⟨pending, q, grown', initialized⟩
    · rcases third with rfl | ⟨pending, initialized⟩
      · exact ⟨rfl, rfl, .same⟩
      · obtain ⟨-, special, code, rfl⟩ := initialized.of_extends grown named typed
        exact ⟨rfl, rfl, .initializer pending special code⟩
    · obtain ⟨rfl, calls_super, code, rfl⟩ := initialized.of_extends grown' named
      rcases third with rfl | ⟨-, initialized⟩
      · exact ⟨rfl, rfl, .constructor pending named calls_super code⟩
      · have := (initialized.of_extends grown named typed).1
        simp at this
  · rcases second with rfl | ⟨-, q, grown', initialized⟩
    · rcases third with rfl | ⟨-, initialized⟩
      · exact ⟨rfl, rfl, .intercepted i planned here code⟩
      · exact absurd (initialized.of_extends grown named typed).1 not_initializer
    · exact absurd (initialized.of_extends grown' named).1 not_constructor

/-! ## The class -/

/-- The body of the intercepted method is found in the member. -/
def Moves (c : ClassFile) (p : Pool) (i : PlannedIntercept) (moved : Member) : Prop :=
  ∃ m code, c.methods[i.site.index.toNat]? = some m ∧
    m.attributes.find? (·.body.code?.isSome) = some code ∧ i.IsMoved p code moved

/-- The methods of a woven class: those in place, the bodies that were moved, and others. -/
structure Arranged (plan : Plan) (owner : ClassName) (c : ClassFile) (p : Pool)
    (methods : List Member) (base moved rest : List Member) : Prop where
  whole : methods = base ++ (moved ++ rest)
  length : base.length = c.methods.length
  kept : ∀ n m, c.methods[n]? = some m → ∃ m', base[n]? = some m' ∧ m'.name = m.name ∧
    m'.descriptor = m.descriptor ∧ IsKept plan owner c.pool n m m'
  moved : List.Forall₂ (Moves c p) plan.intercepts moved
  rest : ∀ x ∈ rest, IsAddedInitializer p x ∨ ∃ m ∈ plan.methods, m.IsAdded p x

/-- Bodies are moved under names that no initializer has. -/
theorem moves_special {is : List PlannedIntercept} {moved : List Member} {special : String}
    (h : List.Forall₂ (Moves c p) is moved) (other : ∀ i ∈ is, i.keptAs ≠ special)
    (grown : p.Extends q) (small : q.size < 65536) {x : Member} (mem : x ∈ moved) :
    q.utf8 x.name ≠ .ok special := by
  obtain ⟨i, planned, m, code, -, -, is_moved⟩ := forall₂_mem_right h mem
  intro named
  have kept := (is_moved.name.mono grown).utf8 (by omega)
  exact other i planned (Except.ok.inj (kept.symm.trans named))

namespace Plan.Suits

variable {s : ClassSite}

/-- A planned interception is one of a method of the class. -/
theorem inside (h : plan.Suits s) (lists : s.Lists c) (few : c.methods.length < 65536)
    {i : PlannedIntercept} (planned : i ∈ plan.intercepts) :
    ∃ m, c.methods[i.site.index.toNat]? = some m ∧ c.pool.utf8 m.name = .ok i.site.name :=
  lists.inside few (h.sites.subset (List.mem_map_of_mem planned))

theorem nodup_index (h : plan.Suits s) (lists : s.Lists c) (few : c.methods.length < 65536) :
    (plan.intercepts.map (·.site.index)).Nodup := by
  have same : plan.intercepts.map (·.site.index) =
      (plan.intercepts.map (·.site)).map (·.index) := by
    rw [List.map_map]
    rfl
  rw [same]
  exact (ClassSite.nodup_index (lists.classFile ▸ few)).sublist (h.sites.map _)

/-- Initialization leaves the moved bodies alone, and changes no method that is wrapped. -/
theorem kept_of_changes (h : plan.Suits s) (lists : s.Lists c) (decoded : c.Decoded options)
    {p₁ p₂ p₃ : Pool} {base₁ moved methods₂ methods₃ : List Member}
    (wrapped : PlannedIntercept.Intercepted plan.intercepts p₁ c.methods base₁ moved)
    (changes : List.Forall₂ (fun m m' => m' = m ∨ (pendingFields false plan.fields ≠ [] ∧
      ∃ r, p₂.Extends r ∧ r.Extends p₃ ∧ IsInitialized r owner m m')) (base₁ ++ moved) methods₂)
    (changes' : List.Forall₂ (fun m m' => m' = m ∨ (pendingFields true plan.fields ≠ [] ∧
      IsClassInitialized p₃ m m')) methods₂ methods₃)
    (grown₁ : c.pool.Extends p₁) (grown₂ : p₁.Extends p₂) (grown₃ : p₂.Extends p₃)
    (small : p₃.size < 65536) :
    ∃ base, methods₃ = base ++ moved ∧ base.length = c.methods.length ∧
      ∀ n m, c.methods[n]? = some m → ∃ m', base[n]? = some m' ∧ m'.name = m.name ∧
        m'.descriptor = m.descriptor ∧ IsKept plan owner c.pool n m m' := by
  have bodies : List.Forall₂ (Moves c p₁) plan.intercepts moved := wrapped.moved
  obtain ⟨base₂, moved₂, rfl, left, right⟩ := forall₂_append_left changes
  obtain rfl : moved₂ = moved := by
    refine forall₂_eq right fun x mem x' change => change.resolve_right ?_
    rintro ⟨-, r, after, before, special, -⟩
    exact moves_special bodies (fun i planned => (h.kept i planned).1) (grown₂.trans after)
      (by have := before.size_le; omega) mem special
  obtain ⟨base₃, moved₃, rfl, left', right'⟩ := forall₂_append_left changes'
  obtain rfl : moved₃ = moved₂ := by
    refine forall₂_eq right' fun x mem x' change => change.resolve_right ?_
    rintro ⟨-, special, -⟩
    exact moves_special bodies (fun i planned => (h.kept i planned).2) (grown₂.trans grown₃)
      small mem (Member.isNamed_iff.1 special).1
  refine ⟨base₃, rfl, ?_, fun n m found => ?_⟩
  · rw [← left'.length_eq, ← left.length_eq, wrapped.length]
  obtain ⟨⟨name, named⟩, descriptor, typed⟩ :=
    decoded.names m (List.mem_append_right _ (List.mem_of_getElem? found))
  have first : ∃ m₁, base₁[n]? = some m₁ ∧ (m₁ = m ∨ ∃ i ∈ plan.intercepts,
      i.site.index.toNat = n ∧ name ≠ "<init>" ∧ name ≠ "<clinit>" ∧
        ∃ code, m₁ = PlannedIntercept.rewrapped m code) := by
    by_cases here : ∃ i ∈ plan.intercepts, i.site.index.toNat = n
    · obtain ⟨i, planned, rfl⟩ := here
      obtain ⟨m', wrapper, found', at_n⟩ := wrapped.wrapped i planned
      obtain ⟨m'', found'', named''⟩ := h.inside lists decoded.few planned
      cases found.symm.trans found'
      cases found.symm.trans found''
      cases named.symm.trans named''
      exact ⟨_, at_n, .inr ⟨i, planned, rfl, (h.method i planned).1, (h.method i planned).2,
        wrapper, rfl⟩⟩
    · exact ⟨m, (wrapped.others n fun i planned same => here ⟨i, planned, same⟩).trans found, .inl rfl⟩
  obtain ⟨m₁, at₁, first⟩ := first
  obtain ⟨m₂, at₂, second⟩ := forall₂_getElem? left at₁
  obtain ⟨m₃, at₃, third⟩ := forall₂_getElem? left' at₂
  refine ⟨m₃, at₃, isKept_of_steps named typed first ?_ third
    ((grown₁.trans grown₂).trans grown₃)⟩
  exact second.imp_right fun ⟨pending, r, after, _, initialized⟩ =>
    ⟨pending, r, (grown₁.trans grown₂).trans after, initialized⟩

end Plan.Suits

/-- What weaving does to a class that it is planned for. -/
theorem Plan.weave_eq_ok {s : ClassSite} (h : plan.weave owner c = .ok () c')
    (suits : plan.Suits s) (lists : s.Lists c) (decoded : c.Decoded options) :
    Keeps options c c' ∧
      (∃ groups, c'.fields = c.fields ++ groups.flatten ∧
        ∀ r, c'.pool.Extends r → r.size < 65536 →
          List.Forall₂ (PlannedField.IsDeclared r) plan.fields groups) ∧
      (c'.pool.size < 65536 →
        ∃ base moved rest, Arranged plan owner c c'.pool c'.methods base moved rest) ∧
      ∃ base added, c'.attributes = base ++ added ∧
        List.Forall₂ (IsMarked c'.pool) c.attributes base := by
  have sound := decoded.readable.pool
  obtain ⟨c₁, c₂, c₃, c₄, c₅, c₆, stages⟩ := stages_of_weave options h sound
  have keeps₄ := stages.keeps₄.trans stages.keepsFrom₄
  have keeps₃ := stages.keeps₃.trans keeps₄
  refine ⟨stages.keeps, stages.fields sound, fun small => ?_, ?_⟩
  · obtain ⟨-, -, -, base₁, moved, methods₁, wrapped⟩ :=
      PlannedIntercept.intercepts_eq_ok options stages.intercepted (List.append_nil _).symm
        (fun i planned => have ⟨_, found, _⟩ := suits.inside lists decoded.few planned
          (List.getElem?_eq_some_iff.1 found).1)
        (suits.nodup_index lists decoded.few) sound
    rw [List.nil_append] at methods₁
    obtain ⟨-, -, -, changes₃⟩ := initializeInstances_eq_ok options stages.constructed
    obtain ⟨-, -, -, base₄, initializers, methods₄, changes₄, named⟩ :=
      initializeStatics_eq_ok options stages.initialized
    obtain ⟨-, -, -, extra, methods₅, added⟩ :=
      PlannedMethod.pushAll_eq_ok options stages.added (stages.keepsTo₄.pool.sound sound)
    have small₃ := keeps₄.pool.keeps.size_le
    rw [stages.methods, methods₁] at changes₃
    obtain ⟨base, rfl, length, kept⟩ := suits.kept_of_changes lists decoded wrapped changes₃
      changes₄ stages.keeps₁.pool.keeps stages.keeps₂.pool.keeps stages.keeps₃.pool.keeps (by omega)
    refine ⟨base, moved, initializers ++ extra, ?_, length, kept, ?_, fun x mem => ?_⟩
    · rw [stages.marked.methods, methods₅, methods₄]
      simp only [List.append_assoc]
    · exact wrapped.moved.imp fun i x ⟨m, code, found, coded, is_moved⟩ =>
        ⟨m, code, found, coded, is_moved.mono (stages.keeps₂.trans keeps₃).pool.keeps⟩
    · have marking := stages.marked.keeps.pool.keeps
      rcases List.mem_append.1 mem with mem | mem
      · exact .inl ((named (stages.keepsTo₃.pool.sound sound) x mem).mono
          stages.keepsFrom₄.pool.keeps)
      · obtain ⟨m, planned, is_added⟩ := forall₂_mem_right added mem
        exact .inr ⟨m, planned, is_added.name.mono marking, is_added.descriptor.mono marking⟩
  · obtain ⟨base, added, same, changes⟩ := stages.marked.attributes
      ((stages.keepsTo₄.trans stages.keeps₅).pool.sound sound)
    rw [stages.attributes] at changes
    exact ⟨base, added, same, changes⟩

/-! ## Moved bodies -/

theorem isNamed_of_holds {m : Member} {name descriptor : String} (named : p.Holds m.name (.utf8 name))
    (typed : p.Holds m.descriptor (.utf8 descriptor)) (grown : p.Extends q) (small : q.size < 65536)
    (other other' : String) :
    m.isNamed q other other' = true ↔ name = other ∧ descriptor = other' := by
  rw [Member.isNamed_iff, (named.mono grown).utf8 (by omega), (typed.mono grown).utf8 (by omega),
    Except.ok.injEq, Except.ok.injEq]

/-- No method of the class has the name and the descriptor of a moved body. -/
theorem Plan.Suits.not_isNamed {s : ClassSite} (h : plan.Suits s) (lists : s.Lists c)
    (grown : c.pool.Extends q) {i : PlannedIntercept} (planned : i ∈ plan.intercepts) {n : Nat}
    {m : Member} (found : c.methods[n]? = some m) :
    ¬ m.isNamed q i.keptAs i.site.descriptor.descriptor = true := by
  obtain ⟨t, typed, named, text, described, parsed⟩ := forall₂_getElem? lists.methods found
  intro same
  obtain ⟨name_eq, text_eq⟩ := Member.isNamed_iff.1 same
  rw [Pool.utf8_mono grown named] at name_eq
  rw [Pool.utf8_mono grown described] at text_eq
  cases text_eq
  obtain ⟨k, -, at_k, typed'⟩ :=
    ClassSite.mem_methods (h.sites.subset (List.mem_map_of_mem planned))
  rw [lists.classFile] at at_k
  obtain ⟨t', typed'', -, text', -, parsed'⟩ := forall₂_getElem? lists.methods at_k
  cases typed'.symm.trans typed''
  rw [MethodDescriptor.ofText_descriptor (MethodDescriptor.spelled_of_ofText parsed')] at parsed
  refine h.apart i planned t (List.mem_of_getElem? typed) ⟨Except.ok.inj name_eq, ?_⟩
  rw [← Except.ok.inj parsed]

/-- Of all methods, the one that the body is moved to has its name and descriptor. -/
theorem Arranged.isNamed_iff {s : ClassSite} {methods base moved rest : List Member}
    (h : Arranged plan owner c p methods base moved rest) (suits : plan.Suits s)
    (lists : s.Lists c) (grown : c.pool.Extends p) (grown' : p.Extends q) (small : q.size < 65536)
    {k : Nat} {i : PlannedIntercept} (at_k : plan.intercepts[k]? = some i) {n : Nat} {m : Member}
    (found : methods[n]? = some m) :
    m.isNamed q i.keptAs i.site.descriptor.descriptor = true ↔ n = c.methods.length + k := by
  have planned := List.mem_of_getElem? at_k
  have inside : k < moved.length := by
    rw [← h.moved.length_eq]
    exact (List.getElem?_eq_some_iff.1 at_k).1
  rw [h.whole] at found
  rcases Nat.lt_or_ge n base.length with below | above
  · rw [List.getElem?_append_left below] at found
    have bound : n < c.methods.length := h.length ▸ below
    obtain ⟨m', at_n, name, descriptor, -⟩ := h.kept n _ (List.getElem?_eq_getElem bound)
    cases found.symm.trans at_n
    have other := suits.not_isNamed lists (grown.trans grown') planned (List.getElem?_eq_getElem bound)
    rw [Member.isNamed_iff, ← name, ← descriptor, ← Member.isNamed_iff] at other
    exact iff_of_false other (by omega)
  rw [List.getElem?_append_right above, h.length] at found
  rw [h.length] at above
  rcases Nat.lt_or_ge (n - c.methods.length) moved.length with below | beyond
  · rw [List.getElem?_append_left below] at found
    obtain ⟨j, at_j, m', code, -, -, is_moved⟩ := forall₂_getElem? h.moved.flip found
    rw [isNamed_of_holds is_moved.name is_moved.descriptor grown' small]
    constructor
    · rintro ⟨kept, typed⟩
      have same : k = n - c.methods.length := by
        refine (List.getElem?_inj ?_ suits.distinct).1 ?_
        · rw [List.length_map, h.moved.length_eq]
          exact inside
        · rw [List.getElem?_map, List.getElem?_map, at_k, at_j]
          simp [kept, typed]
      omega
    · rintro rfl
      rw [Nat.add_sub_cancel_left] at at_j
      cases at_k.symm.trans at_j
      exact ⟨rfl, rfl⟩
  · rw [List.getElem?_append_right beyond] at found
    refine iff_of_false (fun named => ?_) (by omega)
    rcases h.rest m (List.mem_of_getElem? found) with special | ⟨a, added, is_added⟩
    · obtain ⟨same, -⟩ := Member.isNamed_iff.1 named
      rw [(special.name.mono grown').utf8 (by omega)] at same
      exact (suits.kept i planned).2 (Except.ok.inj same).symm
    · rw [isNamed_of_holds is_added.name is_added.descriptor grown' small] at named
      exact suits.apart_added i planned a added named

/-! ## The woven class -/

/-- The image of a class `A` whose static method `m` only returns. -/
def plainImage : Bytes :=
  [0xCA, 0xFE, 0xBA, 0xBE, 0, 0, 0, 52, 0, 8,
   1, 0, 1, 65, 7, 0, 1,
   1, 0, 16, 106, 97, 118, 97, 47, 108, 97, 110, 103, 47, 79, 98, 106, 101, 99, 116, 7, 0, 3,
   1, 0, 1, 109, 1, 0, 3, 40, 41, 86, 1, 0, 4, 67, 111, 100, 101,
   0, 33, 0, 2, 0, 4, 0, 0, 0, 0,
   0, 1, 0, 9, 0, 5, 0, 6, 0, 1, 0, 7, 0, 0, 0, 13, 0, 0, 0, 0, 0, 0, 0, 1, 177, 0, 0, 0, 0,
   0, 0]

/-- A visitor that asks for a field `n` in each class. -/
def counting : Visitor Unit where
  name := "counting"
  handles := (· == .ofClass)
  visit _ := return some (.addField ⟨.accPrivate, "n", .primitive .int, .none⟩)

def plainSite : ClassSite := (ClassSite.ofBytes {} 0 plainImage).toOption.getD default

theorem ofBytes_plainImage : ClassSite.ofBytes {} 0 plainImage = .ok plainSite :=
  except_eq_ok_getD (by decide +kernel)

end Weave

end Weft
