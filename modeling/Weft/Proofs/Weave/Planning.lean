import Mathlib.Data.List.Nodup
import Mathlib.Data.List.Perm.Subperm
import Std.Data.String.ToNat
import Weft.Proofs.Steps
import Weft.Weave.Planning

/-!
# What plans promise

A plan intercepts methods of its class, each at most once and none that initializes. The name under
which a body is kept is free: neither a method of the class nor an added one has it with the same
descriptor, and no other body is kept under it.
-/

namespace Weft

variable {σ : Type}

/-! ## Compositions -/

namespace Composer

variable {c : Composer σ} {s s' : Composing σ} {α : Type} {site : α → Site}

theorem stageMembers_sublist {target : Target} {members : List α}
    {staged : List (α × List (Injection σ))}
    (h : c.stageMembers target site members s = .ok staged s') :
    (staged.map (·.1)).Sublist members := by
  unfold stageMembers at h
  split at h
  · have same : staged.map (·.1) = (members.filter _).map id :=
      step_mapM_map_eq (fun m s b s' made => by
        obtain ⟨composed, s₁, -, made⟩ := step_bind_eq_ok.1 made
        obtain ⟨rfl, -⟩ := step_pure_eq_ok.1 made
        rfl) h
    rw [same, List.map_id]
    exact List.filter_sublist
  · obtain ⟨rfl, -⟩ := step_pure_eq_ok.1 h
    exact List.nil_sublist _

theorem commitMembers_sublist {staged kept : List (α × List (Injection σ))}
    (h : c.commitMembers site staged s = .ok kept s') :
    (kept.map (·.1)).Sublist (staged.map (·.1)) := by
  unfold commitMembers at h
  obtain ⟨committed, s₁, mapped, h⟩ := step_bind_eq_ok.1 h
  obtain ⟨rfl, -⟩ := step_pure_eq_ok.1 h
  have same : committed.map (·.1) = staged.map (·.1) :=
    step_mapM_map_eq (fun m s b s' made => by
      obtain ⟨composed, s₁, -, made⟩ := step_bind_eq_ok.1 made
      obtain ⟨rfl, -⟩ := step_pure_eq_ok.1 made
      rfl) mapped
  exact same ▸ List.filter_sublist.map _

/-- What is composed for a class lists methods of the class, each at most once and in order. -/
theorem composeAll_eq_ok {cs : ClassSite} {composition : Composition σ}
    (h : c.composeAll cs s = .ok composition s') :
    composition.site = cs ∧ (composition.methods.map (·.1)).Sublist cs.methods := by
  unfold composeAll at h
  obtain ⟨additions, s₁, -, h⟩ := step_bind_eq_ok.1 h
  obtain ⟨fields, s₂, -, h⟩ := step_bind_eq_ok.1 h
  obtain ⟨methods, s₃, staged, h⟩ := step_bind_eq_ok.1 h
  obtain ⟨additions', s₄, -, h⟩ := step_bind_eq_ok.1 h
  obtain ⟨fields', s₅, -, h⟩ := step_bind_eq_ok.1 h
  obtain ⟨methods', s₆, committed, h⟩ := step_bind_eq_ok.1 h
  obtain ⟨rfl, -⟩ := step_pure_eq_ok.1 h
  exact ⟨rfl, (commitMembers_sublist committed).trans (stageMembers_sublist staged)⟩

end Composer

namespace Weave

namespace Planner

variable {p : Planner} {s s' : Planning σ}

/-! ## Free names -/

/-- The methods that the class has or will have. -/
def spellings (p : Planner) (s : Planning σ) : List String :=
  p.site.methodTypes.map (fun m => m.1 ++ m.2.descriptor) ++
    s.methods.map (fun m => m.name ++ m.descriptor.descriptor) ++ s.kept

theorem mem_spellings_of_hasMethod {name descriptor : String}
    (h : p.hasMethod name descriptor s = true) : name ++ descriptor ∈ p.spellings s := by
  simp only [hasMethod, Bool.or_eq_true, List.any_eq_true, Bool.and_eq_true, beq_iff_eq,
    List.contains_iff_mem] at h
  simp only [spellings, List.mem_append, List.mem_map]
  rcases h with (⟨m, mem, rfl, rfl⟩ | ⟨m, mem, rfl, rfl⟩) | mem
  · exact .inl (.inl ⟨m, mem, rfl⟩)
  · exact .inl (.inr ⟨m, mem, rfl⟩)
  · exact .inr mem

theorem numberedName_taken {t : String → Bool} {base : String} {fuel n : Nat}
    (h : t (numberedName t base fuel n) = true) {k : Nat} (above : n ≤ k) (below : k ≤ n + fuel) :
    t (base ++ toString k) = true := by
  induction fuel generalizing n with
  | zero =>
    obtain rfl : k = n := by omega
    exact h
  | succ fuel ih =>
    unfold numberedName at h
    dsimp only at h
    split at h
    · rcases Nat.lt_or_eq_of_le above with above | rfl
      · exact ih h above (by omega)
      · assumption
    · contradiction

theorem toString_ne_empty (n : Nat) : toString n ≠ "" := fun empty =>
  Nat.toDigits_ne_nil (Nat.toList_repr.symm.trans (congrArg String.toList empty))

/-- A base and as many numbered names as there are methods are too many names to be all taken. -/
theorem freeName_free (p : Planner) (base descriptor : String) (s : Planning σ) :
    p.hasMethod (p.freeName base descriptor s) descriptor s = false := by
  unfold freeName
  dsimp only
  split
  · rename_i first
    rw [Bool.eq_false_iff]
    intro last
    let names := base :: (List.range' 1 (p.spellings s).length).map fun k => base ++ toString k
    have size : p.site.methodTypes.length + s.methods.length + s.kept.length =
        (p.spellings s).length := by
      simp [spellings, Nat.add_assoc]
    rw [size] at last
    have taken : names.map (· ++ descriptor) ⊆ p.spellings s := by
      intro text mem
      obtain ⟨name, named, rfl⟩ := List.mem_map.1 mem
      rcases List.mem_cons.1 named with rfl | numbered
      · exact mem_spellings_of_hasMethod first
      · obtain ⟨k, few, rfl⟩ := List.mem_map.1 numbered
        obtain ⟨above, below⟩ := List.mem_range'_1.1 few
        exact mem_spellings_of_hasMethod (numberedName_taken
          (t := fun name => p.hasMethod name descriptor s) last above (by omega))
    have distinct : (names.map (· ++ descriptor)).Nodup := by
      refine List.Nodup.map (fun a b => (String.append_left_inj descriptor).1) ?_
      refine List.nodup_cons.2 ⟨fun mem => ?_, List.Nodup.map ?_ List.nodup_range'⟩
      · obtain ⟨k, -, same⟩ := List.mem_map.1 mem
        exact toString_ne_empty k ((String.append_right_inj base).1 (same.trans
          String.append_empty.symm))
      · exact fun a b same => Nat.repr_inj.1 ((String.append_right_inj base).1 same)
    have few := (distinct.subperm taken).length_le
    simp only [names, List.length_map, List.length_cons, List.length_range'] at few
    omega
  · rename_i free
    rwa [Bool.not_eq_true] at free

theorem exists_freeName (p : Planner) (base descriptor : String) (s : Planning σ) :
    ∃ suffix, p.freeName base descriptor s = base ++ suffix := by
  have numbered (taken : String → Bool) (fuel n : Nat) :
      ∃ suffix, numberedName taken base fuel n = base ++ suffix := by
    induction fuel generalizing n with
    | zero => exact ⟨_, rfl⟩
    | succ fuel ih =>
      unfold numberedName
      dsimp only
      split
      · exact ih (n + 1)
      · exact ⟨_, rfl⟩
  unfold freeName
  dsimp only
  split
  · exact numbered _ _ _
  · exact ⟨"", String.append_empty.symm⟩

/-- A body is kept under no name that the virtual machine gives a meaning to. -/
theorem ordinary_freeName (p : Planner) (method descriptor : String) (s : Planning σ) :
    p.freeName (keptName method) descriptor s ≠ "<init>" ∧
      p.freeName (keptName method) descriptor s ≠ "<clinit>" := by
  obtain ⟨suffix, same⟩ := exists_freeName p (keptName method) descriptor s
  have dollar : '$' ∈ (p.freeName (keptName method) descriptor s).toList := by
    rw [same, keptName, String.toList_append, String.toList_append]
    exact List.mem_append_left _ (List.mem_append_right _ (by decide))
  constructor
  all_goals
    intro special
    rw [special] at dollar
    revert dollar
    decide

/-! ## Callbacks and methods -/

theorem register_eq_ok {c : Callback σ} {token : String} (h : register c s = .ok token s') :
    token = (s.registry.register c).1 ∧ s' = { s with registry := (s.registry.register c).2 } := by
  cases h
  exact ⟨rfl, rfl⟩

/-- A declared method that is not refused has a free and ordinary name and a body. What it uses gets
its accessors, and behind them its body is registered. -/
theorem steps_of_addMethod {d : MethodDeclaration σ} (h : p.addMethod d s = .ok () s') :
    d.name.startsWith "<" = false ∧ p.site.isInterface = false ∧
      d.access.hasAny (.accAbstract ∪ .accNative) = false ∧
      p.hasMethod d.name d.descriptor.descriptor s = false ∧
      ∃ fields methods s₁ s₂,
        (d.fields.mapM (p.fieldAccessor d) : Step σ (List (String × ClassName))) s =
          .ok fields s₁ ∧
        (d.methods.mapM (p.methodAccessor d) : Step σ (List (String × ClassName))) s₁ =
          .ok methods s₂ ∧
        s' = { s₂ with
          registry := (s₂.registry.register (.addedMethod d.code)).2
          methods := s₂.methods ++ [⟨d.access ∪ .accSynthetic, d.name, d.descriptor, d.throws,
            (s₂.registry.register (.addedMethod d.code)).1, fields, methods⟩] } := by
  unfold addMethod at h
  dsimp only at h
  split at h
  · cases h
  rename_i ordinary
  split at h
  · cases h
  rename_i hosted
  split at h
  · cases h
  rename_i bodied
  rw [step_get_bind] at h
  split at h
  · cases h
  rename_i free
  obtain ⟨fields, s₁, reached, h⟩ := step_bind_eq_ok.1 h
  obtain ⟨methods, s₂, reached', h⟩ := step_bind_eq_ok.1 h
  obtain ⟨token, s₃, registered, h⟩ := step_bind_eq_ok.1 h
  obtain ⟨rfl, rfl⟩ := register_eq_ok registered
  cases h
  simp only [Bool.not_eq_true] at ordinary hosted bodied free
  exact ⟨ordinary, hosted, bodied, free, fields, methods, s₁, s₂, reached, reached', rfl⟩

/-! ## Interceptions -/

/-- How an interception goes that is not refused. Either nothing is asked for, and nothing is
planned. Or the method passes all checks: its body gets a free name and a helper that calls it, and
the chain of what is asked for is registered. -/
inductive Intercepted (p : Planner) (m : MethodSite) (injections : List (Injection σ))
    (s : Planning σ) : Option PlannedIntercept → Planning σ → Prop
  | idle (nothing : injections.all (·.isNothing) = true) : Intercepted p m injections s none s
  | planned {chain : Chain σ} {keptAs : String} {helper : ClassName}
      (asked : injections.all (·.isNothing) = false)
      (method : m.name ≠ "<init>" ∧ m.name ≠ "<clinit>")
      (hosted : p.site.isInterface = false)
      (bodied : m.access.hasAny (.accAbstract ∪ .accNative) = false ∧ m.hasCode = true)
      (made : Chain.ofInjections m injections = .ok chain)
      (named : keptAs = p.freeName (keptName m.name) m.descriptor.descriptor s)
      (numbered : helper = p.owner.nested (helperSuffix "Call" s.nextHelper)) :
      Intercepted p m injections s
        (some ⟨m, chain.length, (s.registry.register (.interception chain)).1, keptAs, helper⟩)
        { s with
          registry := (s.registry.register (.interception chain)).2
          nextHelper := s.nextHelper + 1
          helpers := s.helpers ++ [⟨helper, .call keptAs m.descriptor m.isStatic⟩]
          kept := (keptAs ++ m.descriptor.descriptor) :: s.kept }

theorem intercepted_of_intercept {m : MethodSite} {injections : List (Injection σ)}
    {i? : Option PlannedIntercept} (h : p.intercept m injections s = .ok i? s') :
    p.Intercepted m injections s i? s' := by
  unfold intercept at h
  split at h
  · obtain ⟨rfl, rfl⟩ := step_pure_eq_ok.1 h
    exact .idle ‹_›
  rename_i asked
  dsimp only at h
  split at h
  · cases h
  rename_i method
  split at h
  · cases h
  rename_i hosted
  split at h
  · cases h
  rename_i bodied
  obtain ⟨chain, s₁, lifted, h⟩ := step_bind_eq_ok.1 h
  obtain ⟨made, rfl⟩ := edit_lift_eq_ok.1 lifted
  cases h
  simp only [Bool.or_eq_true, MethodSite.isConstructor, MethodSite.isStaticInitializer,
    beq_iff_eq, not_or, Bool.not_eq_true, Bool.not_eq_false'] at asked method hosted bodied
  exact .planned asked method hosted bodied made rfl rfl

/-- A planned interception of a method that does not initialize, with a free name for its body. -/
structure Admits (p : Planner) (s : Planning σ) (i : PlannedIntercept) : Prop where
  method : i.site.name ≠ "<init>" ∧ i.site.name ≠ "<clinit>"
  named : ∃ suffix, i.keptAs = keptName i.site.name ++ suffix
  kept : i.keptAs ≠ "<init>" ∧ i.keptAs ≠ "<clinit>"
  free : p.hasMethod i.keptAs i.site.descriptor.descriptor s = false

theorem intercept_eq_ok {m : MethodSite} {injections : List (Injection σ)}
    {i? : Option PlannedIntercept} (h : p.intercept m injections s = .ok i? s') :
    s'.methods = s.methods ∧ ((i? = none ∧ s'.kept = s.kept) ∨
      ∃ i, i? = some i ∧ i.site = m ∧ p.Admits s i ∧
        s'.kept = (i.keptAs ++ i.site.descriptor.descriptor) :: s.kept) := by
  cases intercepted_of_intercept h with
  | idle => exact ⟨rfl, .inl ⟨rfl, rfl⟩⟩
  | planned asked method hosted bodied made named =>
    subst named
    exact ⟨rfl, .inr ⟨_, rfl, rfl, ⟨method, p.exists_freeName _ _ s,
      p.ordinary_freeName _ _ s, p.freeName_free _ _ s⟩, rfl⟩⟩

theorem Admits.mono {i : PlannedIntercept} (h : p.Admits s' i) (methods : s'.methods = s.methods)
    (kept : s.kept ⊆ s'.kept) : p.Admits s i := by
  refine ⟨h.method, h.named, h.kept, ?_⟩
  have free := h.free
  simp only [hasMethod, Bool.or_eq_false_iff, methods] at free ⊢
  refine ⟨free.1, Bool.eq_false_iff.2 fun mem => ?_⟩
  have newer := List.contains_iff_mem.2 (kept (List.contains_iff_mem.1 mem))
  rw [free.2] at newer
  cases newer

theorem intercepts_eq_ok {asked : List (MethodSite × List (Injection σ))}
    {is : List (Option PlannedIntercept)}
    (h : (asked.mapM fun a => p.intercept a.1 a.2 : Step σ (List (Option PlannedIntercept))) s =
      .ok is s') :
    s'.methods = s.methods ∧ s.kept ⊆ s'.kept ∧
      ((is.filterMap id).map (·.site)).Sublist (asked.map (·.1)) ∧
      (∀ i ∈ is.filterMap id, p.Admits s i) ∧
      ((is.filterMap id).map fun i => i.keptAs ++ i.site.descriptor.descriptor).Nodup := by
  induction asked generalizing s is with
  | nil =>
    obtain ⟨rfl, rfl⟩ := step_pure_eq_ok.1 h
    exact ⟨rfl, fun _ mem => mem, .slnil, (fun _ mem => nomatch mem), .nil⟩
  | cons a asked ih =>
    obtain ⟨i?, rest, s₁, first, second, rfl⟩ := step_mapM_cons_eq_ok.1 h
    obtain ⟨methods, planned⟩ := intercept_eq_ok first
    obtain ⟨methods', grown, sites, each, distinct⟩ := ih second
    rcases planned with ⟨rfl, same⟩ | ⟨i, rfl, site, admitted, kept⟩
    · rw [same] at grown
      exact ⟨methods'.trans methods, grown, sites.cons _,
        fun i mem => (each i mem).mono methods (same ▸ fun _ mem => mem), distinct⟩
    · have older : s.kept ⊆ s₁.kept := kept ▸ fun _ mem => List.mem_cons_of_mem _ mem
      refine ⟨methods'.trans methods, List.Subset.trans older grown, ?_, fun j mem => ?_, ?_⟩
      · rw [List.map_cons, ← site]
        exact sites.cons_cons _
      · rcases List.mem_cons.1 mem with rfl | mem
        · exact admitted
        · exact (each j mem).mono methods older
      · refine List.nodup_cons.2 ⟨fun mem => ?_, distinct⟩
        obtain ⟨j, mem, same⟩ := List.mem_map.1 mem
        have free := (each j mem).free
        simp only [hasMethod, Bool.or_eq_false_iff] at free
        have newest := free.2
        rw [same, kept, List.contains_cons, beq_self_eq_true] at newest
        cases newest

theorem checkField_eq_ok {f : FieldSite} {injections : List (Injection σ)}
    (h : checkField f injections s = .ok () s') : s' = s := by
  unfold checkField at h
  cases found : injections.find? (!·.isNothing) with
  | none =>
    rw [found] at h
    cases h
    rfl
  | some i =>
    rw [found] at h
    cases h

theorem checkFields_eq_ok {fields : List (FieldSite × List (Injection σ))}
    (h : (fields.forM fun f => checkField f.1 f.2 : Step σ PUnit) s = .ok ⟨⟩ s') : s' = s := by
  induction fields generalizing s with
  | nil =>
    cases h
    rfl
  | cons f fields ih =>
    obtain ⟨⟨⟩, s₁, first, h⟩ := step_bind_eq_ok.1 h
    rw [ih h, checkField_eq_ok first]

end Planner

/-! ## The plan -/

section Composed

variable {options : Options} {c : Composition σ} {l l' : Ledger σ}

theorem Plan.plan_of_ofComposition {plan : Plan}
    (h : Plan.ofComposition options c l = .ok plan l') :
    ∃ s, Planner.plan ⟨c.site, options⟩ c
        { registry := l.registry, nextHelper := l.nextHelper } = .ok plan s ∧
      l' = ⟨s.registry, s.nextHelper⟩ := by
  unfold ofComposition at h
  dsimp only at h
  split at h
  · rename_i planned
    cases h
    exact ⟨_, planned, rfl⟩
  · cases h

theorem Plan.plan_of_refused {e : Error} (h : Plan.ofComposition options c l = .error e l') :
    ∃ s, Planner.plan ⟨c.site, options⟩ c
        { registry := l.registry, nextHelper := l.nextHelper } = .error e s ∧
      l' = ⟨s.registry, s.nextHelper⟩ := by
  unfold ofComposition at h
  dsimp only at h
  split at h
  · cases h
  · rename_i refused
    cases h
    exact ⟨_, refused, rfl⟩

end Composed

/-- The phases that a plan comes of: fields, methods, interceptions, and the check that nothing is
asked for at fields. -/
theorem Plan.ofComposition_eq_ok {options : Options} {c : Composition σ} {l l' : Ledger σ}
    {plan : Plan} (h : Plan.ofComposition options c l = .ok plan l') :
    ∃ declared is s₁ s₂ s,
      Planner.addFields ⟨c.site, options⟩ c.additions
        { registry := l.registry, nextHelper := l.nextHelper } = .ok declared s₁ ∧
      (declared.forM (Planner.addMethod ⟨c.site, options⟩) : Planner.Step σ PUnit) s₁ =
        .ok ⟨⟩ s₂ ∧
      (c.methods.mapM fun a => Planner.intercept ⟨c.site, options⟩ a.1 a.2 :
        Planner.Step σ (List (Option PlannedIntercept))) s₂ = .ok is s ∧
      plan = { site := c.site, options, fields := s.fields, methods := s.methods
               intercepts := is.filterMap id, helpers := s.helpers, injections := c.length } ∧
      l' = ⟨s.registry, s.nextHelper⟩ := by
  obtain ⟨s, planned, rfl⟩ := plan_of_ofComposition h
  obtain ⟨declared, s₁, first, planned⟩ := step_bind_eq_ok.1 planned
  obtain ⟨⟨⟩, s₂, second, planned⟩ := step_bind_eq_ok.1 planned
  obtain ⟨is, s₃, third, planned⟩ := step_bind_eq_ok.1 planned
  obtain ⟨⟨⟩, s₄, checked, planned⟩ := step_bind_eq_ok.1 planned
  have same := Planner.checkFields_eq_ok checked
  rw [step_get_bind] at planned
  obtain ⟨rfl, rfl⟩ := step_pure_eq_ok.1 planned
  exact ⟨declared, is, s₁, s₂, s₄, first, second, same ▸ third, rfl, rfl⟩

/-- What the plan for a class promises. -/
structure Plan.Suits (plan : Plan) (s : ClassSite) : Prop where
  site : plan.site = s
  sites : (plan.intercepts.map (·.site)).Sublist s.methods
  method : ∀ i ∈ plan.intercepts, i.site.name ≠ "<init>" ∧ i.site.name ≠ "<clinit>"
  kept : ∀ i ∈ plan.intercepts, i.keptAs ≠ "<init>" ∧ i.keptAs ≠ "<clinit>"
  apart : ∀ i ∈ plan.intercepts, ∀ m ∈ s.methodTypes,
    ¬ (m.1 = i.keptAs ∧ m.2.descriptor = i.site.descriptor.descriptor)
  apart_added : ∀ i ∈ plan.intercepts, ∀ m ∈ plan.methods,
    ¬ (m.name = i.keptAs ∧ m.descriptor.descriptor = i.site.descriptor.descriptor)
  distinct : (plan.intercepts.map fun i => i.keptAs ++ i.site.descriptor.descriptor).Nodup

theorem Planner.Admits.apart {p : Planner} {s : Planning σ} {i : PlannedIntercept}
    (h : p.Admits s i) : (∀ m ∈ p.site.methodTypes,
      ¬ (m.1 = i.keptAs ∧ m.2.descriptor = i.site.descriptor.descriptor)) ∧
    ∀ m ∈ s.methods, ¬ (m.name = i.keptAs ∧ m.descriptor.descriptor = i.site.descriptor.descriptor) := by
  have free := h.free
  simp only [hasMethod, Bool.or_eq_false_iff, List.any_eq_false, Bool.and_eq_true,
    beq_iff_eq] at free
  exact free.1

/-- The intercepted methods of a plan are among those that were asked for, and each interception
could be planned behind all others. -/
theorem Plan.intercepts_of_ofComposition {options : Options} {c : Composition σ} {l l' : Ledger σ}
    {plan : Plan} (h : Plan.ofComposition options c l = .ok plan l') :
    plan.site = c.site ∧ (plan.intercepts.map (·.site)).Sublist (c.methods.map (·.1)) ∧
      (∃ s : Planning σ, s.methods = plan.methods ∧
        ∀ i ∈ plan.intercepts, Planner.Admits ⟨c.site, options⟩ s i) ∧
      (plan.intercepts.map fun i => i.keptAs ++ i.site.descriptor.descriptor).Nodup := by
  obtain ⟨declared, is, s₁, s₂, s, -, -, intercepted, rfl, -⟩ := ofComposition_eq_ok h
  obtain ⟨methods, -, sub, each, distinct⟩ := Planner.intercepts_eq_ok intercepted
  exact ⟨rfl, sub, ⟨s₂, methods.symm, each⟩, distinct⟩

/-- Bodies are kept under names that are made of those of their methods. -/
theorem Plan.keptAs_of_ofComposition {options : Options} {c : Composition σ} {l l' : Ledger σ}
    {plan : Plan} (h : Plan.ofComposition options c l = .ok plan l') :
    ∀ i ∈ plan.intercepts, ∃ suffix, i.keptAs = keptName i.site.name ++ suffix := by
  obtain ⟨-, -, ⟨s, -, each⟩, -⟩ := intercepts_of_ofComposition h
  exact fun i mem => (each i mem).named

/-- A plan is for the class whose injections were composed. -/
theorem Plan.suits_of_ofComposition {options : Options} {c : Composition σ} {l l' : Ledger σ}
    {plan : Plan} (h : Plan.ofComposition options c l = .ok plan l')
    (sites : (c.methods.map (·.1)).Sublist c.site.methods) : plan.Suits c.site := by
  obtain ⟨site, sub, ⟨s, methods, each⟩, distinct⟩ := intercepts_of_ofComposition h
  exact
    { site := site
      sites := sub.trans sites
      method := fun i mem => (each i mem).method
      kept := fun i mem => (each i mem).kept
      apart := fun i mem => (each i mem).apart.1
      apart_added := fun i mem m added => (each i mem).apart.2 m (methods ▸ added)
      distinct }

end Weave

end Weft
