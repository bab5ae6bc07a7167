import Weft.Proofs.Weave.Callbacks
import Weft.Proofs.Weave.Marshalling

/-!
# The helpers of a plan

An accessor is planned for a member that the class has or will have, under the flags of the member,
and for a private member only where helpers join the nest of the class. Behind the accessors comes
one helper for each interception. All are numbered one after another, so that no two have one name.
-/

namespace Weft.Weave

variable {σ : Type}

/-! ## Names -/

/-- The number of a helper is read off its name. -/
theorem helperSuffix_inj {owner owner' : ClassName} {letter letter' : String}
    (known : letter ∈ Planner.helperLetters) (known' : letter' ∈ Planner.helperLetters) {n n' : Nat}
    (same : owner.nested (helperSuffix letter n) = owner'.nested (helperSuffix letter' n')) :
    n = n' := by
  have plain : ∀ letter ∈ Planner.helperLetters,
      ("$cw$" ++ letter).toList.getLast?.any (!·.isDigit) = true := by decide
  rw [Planner.nested_helperSuffix, Planner.nested_helperSuffix, ClassName.mk.injEq] at same
  exact ClassName.numbered_inj (plain letter known) (plain letter' known') same

/-- The helpers are nested in the owner under names that bear the numbers from `n` on. -/
def Numbered (owner : ClassName) : Nat → List Helper → Prop
  | _, [] => True
  | n, h :: hs =>
    (∃ letter ∈ Planner.helperLetters, h.name = owner.nested (helperSuffix letter n)) ∧
      Numbered owner (n + 1) hs

namespace Numbered

variable {owner : ClassName} {hs hs' : List Helper} {n : Nat}

theorem append (h : Numbered owner n hs) (h' : Numbered owner (n + hs.length) hs') :
    Numbered owner n (hs ++ hs') := by
  induction hs generalizing n with
  | nil => exact h'
  | cons helper hs ih =>
    refine ⟨h.1, ih h.2 ?_⟩
    rwa [List.length_cons, Nat.add_comm hs.length 1, ← Nat.add_assoc] at h'

theorem above (h : Numbered owner n hs) {helper : Helper} (mem : helper ∈ hs) :
    ∃ k, n ≤ k ∧ ∃ letter ∈ Planner.helperLetters,
      helper.name = owner.nested (helperSuffix letter k) := by
  induction hs generalizing n with
  | nil => cases mem
  | cons first hs ih =>
    rcases List.mem_cons.1 mem with rfl | mem
    · exact ⟨n, Nat.le_refl n, h.1⟩
    · obtain ⟨k, above, named⟩ := ih h.2 mem
      exact ⟨k, Nat.le_of_succ_le above, named⟩

/-- Helpers that are numbered have names of their own. -/
theorem nodup (h : Numbered owner n hs) : (hs.map (·.name)).Nodup := by
  induction hs generalizing n with
  | nil => exact .nil
  | cons first hs ih =>
    obtain ⟨⟨letter, known, named⟩, rest⟩ := h
    refine List.nodup_cons.2 ⟨fun mem => ?_, ih rest⟩
    obtain ⟨other, mem, same⟩ := List.mem_map.1 mem
    obtain ⟨k, above, letter', known', named'⟩ := rest.above mem
    obtain rfl := helperSuffix_inj known known' (named.symm.trans (same.symm.trans named'))
    exact absurd above (Nat.not_succ_le_self n)

end Numbered

/-! ## What accessors are for -/

/-- What an accessor is for, with the flags of it: the first field of a name in the class, the first
method of a name and a descriptor, or what is planned. -/
inductive Finds (s : ClassSite) (fields : List PlannedField) (methods : List PlannedMethod) :
    HelperKind → Access → Prop
  | field (name : String) (f : FieldSite) (found : s.field? name = some f) :
    Finds s fields methods (.field name f.type f.access.isStatic (f.access.has .accFinal)) f.access
  | plannedField (f : PlannedField) (planned : f ∈ fields) :
    Finds s fields methods (.field f.name f.type f.access.isStatic (f.access.has .accFinal)) f.access
  | method (name : String) (d : MethodDescriptor) (m : MethodSite)
    (found : s.method? name d.descriptor = some m) :
    Finds s fields methods (.method name d m.access.isStatic) m.access
  | plannedMethod (m : PlannedMethod) (planned : m ∈ methods) :
    Finds s fields methods (.method m.name m.descriptor m.access.isStatic) m.access

/-- The helper is for a member that it reaches: for a private one only in the nest of the class. -/
def Reaches (s : ClassSite) (options : Options) (fields : List PlannedField)
    (methods : List PlannedMethod) (kind : HelperKind) : Prop :=
  ∃ access, Finds s fields methods kind access ∧
    (access.has .accPrivate = true → hostsNest options s.classFile = true)

section Mono

variable {s : ClassSite} {options : Options} {fields fields' : List PlannedField}
  {methods methods' : List PlannedMethod} {kind : HelperKind} {access : Access}

theorem Finds.mono (h : Finds s fields methods kind access) (more : fields ⊆ fields')
    (more' : methods ⊆ methods') : Finds s fields' methods' kind access := by
  cases h with
  | field name f found => exact .field name f found
  | plannedField f planned => exact .plannedField f (more planned)
  | method name d m found => exact .method name d m found
  | plannedMethod m planned => exact .plannedMethod m (more' planned)

theorem Reaches.mono (h : Reaches s options fields methods kind) (more : fields ⊆ fields')
    (more' : methods ⊆ methods') : Reaches s options fields' methods' kind := by
  obtain ⟨access, found, granted⟩ := h
  exact ⟨access, found.mono more more', granted⟩

end Mono

/-! ## What an added method uses -/

/-- The helper gives access to the field of that name. -/
def HelperKind.OfField (name : String) : HelperKind → Prop
  | field other .. => other = name
  | _ => False

/-- The helper calls the method of that name and descriptor. -/
def HelperKind.OfMethod (m : MethodReference) : HelperKind → Prop
  | method other d _ => other = m.name ∧ d.descriptor = m.descriptor.descriptor
  | _ => False

/-- The accessor has that name, and its helper is of a kind. -/
def Serves (helpers : List Helper) (name : String) (P : HelperKind → Prop)
    (accessor : String × ClassName) : Prop :=
  accessor.1 = name ∧ ∃ h ∈ helpers, h.name = accessor.2 ∧ P h.kind

/-- The method is planned as it is declared, with one accessor for each field and each method that
it uses, in their order. -/
structure PlannedMethod.Equips (helpers : List Helper) (d : MethodDeclaration σ)
    (m : PlannedMethod) : Prop where
  name : m.name = d.name
  descriptor : m.descriptor = d.descriptor
  fields : List.Forall₂ (fun name => Serves helpers name (HelperKind.OfField name))
    d.fields m.fields
  methods : List.Forall₂ (fun callee => Serves helpers callee.name (HelperKind.OfMethod callee))
    d.methods m.methods

section Mono

variable {helpers helpers' : List Helper}

theorem Serves.mono {name : String} {P : HelperKind → Prop} {a : String × ClassName}
    (h : Serves helpers name P a) (more : helpers ⊆ helpers') : Serves helpers' name P a := by
  obtain ⟨named, helper, mem, found⟩ := h
  exact ⟨named, helper, more mem, found⟩

theorem PlannedMethod.Equips.mono {d : MethodDeclaration σ} {m : PlannedMethod}
    (h : m.Equips helpers d) (more : helpers ⊆ helpers') : m.Equips helpers' d where
  name := h.name
  descriptor := h.descriptor
  fields := h.fields.imp fun _ _ served => served.mono more
  methods := h.methods.imp fun _ _ served => served.mono more

end Mono

namespace Planner

variable {p : Planner} {s s' s'' : Planning σ} {added added' : List Helper}

/-! ## Steps that plan helpers -/

/-- The step plans those helpers, under the numbers that follow, and drops nothing. -/
structure Plans (p : Planner) (s s' : Planning σ) (added : List Helper) : Prop where
  fields : s.fields ⊆ s'.fields
  methods : s.methods ⊆ s'.methods
  helpers : s'.helpers = s.helpers ++ added
  next : s'.nextHelper = s.nextHelper + added.length
  numbered : Numbered p.owner s.nextHelper added

theorem Plans.nothing (s : Planning σ) : p.Plans s s [] :=
  ⟨List.Subset.refl _, List.Subset.refl _, (List.append_nil _).symm, rfl, trivial⟩

theorem Plans.trans (h : p.Plans s s' added) (h' : p.Plans s' s'' added') :
    p.Plans s s'' (added ++ added') where
  fields := List.Subset.trans h.fields h'.fields
  methods := List.Subset.trans h.methods h'.methods
  helpers := by rw [h'.helpers, h.helpers, List.append_assoc]
  next := by rw [h'.next, h.next, List.length_append, Nat.add_assoc]
  numbered := h.numbered.append (h.next ▸ h'.numbered)

/-- The step plans accessors only, each for a member that it reaches. -/
def Equips (p : Planner) (s s' : Planning σ) : Prop :=
  ∃ added, p.Plans s s' added ∧
    ∀ h ∈ added, Reaches p.site p.options s'.fields s'.methods h.kind

theorem Equips.refl (s : Planning σ) : p.Equips s s :=
  ⟨[], .nothing s, List.forall_mem_nil _⟩

theorem Equips.trans (h : p.Equips s s') (h' : p.Equips s' s'') : p.Equips s s'' := by
  obtain ⟨added, plans, reached⟩ := h
  obtain ⟨added', plans', reached'⟩ := h'
  refine ⟨added ++ added', plans.trans plans', fun x mem => ?_⟩
  rcases List.mem_append.1 mem with mem | mem
  · exact (reached x mem).mono plans'.fields plans'.methods
  · exact reached' x mem

theorem Equips.helpers (h : p.Equips s s') : s.helpers ⊆ s'.helpers := by
  obtain ⟨added, plans, -⟩ := h
  rw [plans.helpers]
  exact List.subset_append_left _ _

theorem helperFor_eq_ok {letter : String} (known : letter ∈ helperLetters) {kind : HelperKind}
    {serves : HelperKind → Bool} {name : ClassName}
    (h : p.helperFor letter kind serves s = .ok name s') (own : serves kind = true)
    (reached : Reaches p.site p.options s.fields s.methods kind) :
    p.Equips s s' ∧ ∃ helper ∈ s'.helpers, helper.name = name ∧ serves helper.kind = true := by
  unfold helperFor at h
  rw [step_get_bind] at h
  cases found : s.helpers.find? (serves ·.kind) with
  | some helper =>
    simp only [found] at h
    obtain ⟨rfl, rfl⟩ := step_pure_eq_ok.1 h
    have serves := List.find?_some (p := fun h : Helper => serves h.kind) found
    exact ⟨.refl s, helper, List.mem_of_find?_eq_some found, rfl, serves⟩
  | none =>
    simp only [found] at h
    cases h
    refine ⟨⟨[⟨_, kind⟩], ⟨List.Subset.refl _, List.Subset.refl _, rfl, rfl, ?_, trivial⟩, ?_⟩,
      ⟨_, kind⟩, List.mem_append_right _ (List.mem_singleton_self _), rfl, own⟩
    · exact ⟨letter, known, rfl⟩
    · exact List.forall_mem_singleton.2 reached

theorem resolveField_eq_ok {name : String} {access : Access} {type : JType}
    (h : p.resolveField name s = .ok (access, type) s') : s' = s ∧
      Finds p.site s.fields s.methods
        (.field name type access.isStatic (access.has .accFinal)) access := by
  unfold resolveField at h
  cases found : p.site.field? name with
  | some f =>
    simp only [found] at h
    cases h
    exact ⟨rfl, .field name f found⟩
  | none =>
    simp only [found] at h
    rw [step_get_bind] at h
    cases planned : s.fields.find? (·.name == name) with
    | none =>
      simp only [planned] at h
      cases h
    | some f =>
      simp only [planned] at h
      cases h
      obtain rfl : f.name = name := by simpa using List.find?_some planned
      exact ⟨rfl, .plannedField f (List.mem_of_find?_eq_some planned)⟩

theorem resolveMethod_eq_ok {m : MethodReference} {access : Access}
    (h : p.resolveMethod m s = .ok access s') : s' = s ∧
      Finds p.site s.fields s.methods (.method m.name m.descriptor access.isStatic) access := by
  unfold resolveMethod at h
  split at h
  · cases h
  dsimp only at h
  cases found : p.site.method? m.name m.descriptor.descriptor with
  | some own =>
    simp only [found] at h
    cases h
    exact ⟨rfl, .method m.name m.descriptor own found⟩
  | none =>
    simp only [found] at h
    rw [step_get_bind] at h
    cases planned : s.methods.find? fun q => q.name == m.name && q.descriptor == m.descriptor with
    | none =>
      simp only [planned] at h
      cases h
    | some q =>
      simp only [planned] at h
      cases h
      obtain ⟨name, descriptor⟩ : q.name = m.name ∧ q.descriptor = m.descriptor := by
        simpa using List.find?_some planned
      refine ⟨rfl, ?_⟩
      rw [← name, ← descriptor]
      exact .plannedMethod q (List.mem_of_find?_eq_some planned)

theorem checkReach_eq_ok {m : MethodDeclaration σ} {member : String} {access : Access}
    (h : p.checkReach m member access s = .ok () s') : s' = s ∧
      (access.has .accPrivate = true → hostsNest p.options p.site.classFile = true) := by
  unfold checkReach at h
  split at h
  · cases h
  split at h
  · cases h
  · rename_i granted
    cases h
    refine ⟨rfl, fun hidden => ?_⟩
    simpa [hidden] using granted

theorem fieldAccessor_eq_ok {m : MethodDeclaration σ} {name : String} {a : String × ClassName}
    (h : p.fieldAccessor m name s = .ok a s') :
    p.Equips s s' ∧ Serves s'.helpers name (HelperKind.OfField name) a := by
  obtain ⟨⟨access, type⟩, s₁, resolved, h⟩ := step_bind_eq_ok.1 h
  obtain ⟨⟨⟩, s₂, checked, h⟩ := step_bind_eq_ok.1 h
  obtain ⟨name', s₃, served, h⟩ := step_bind_eq_ok.1 h
  obtain ⟨rfl, rfl⟩ := step_pure_eq_ok.1 h
  obtain ⟨rfl, found⟩ := resolveField_eq_ok resolved
  obtain ⟨rfl, granted⟩ := checkReach_eq_ok checked
  obtain ⟨equips, helper, mem, named, serves⟩ := helperFor_eq_ok (by simp [helperLetters]) served
    (beq_self_eq_true name) ⟨access, found, granted⟩
  refine ⟨equips, rfl, helper, mem, named, ?_⟩
  split at serves
  · rename_i kind
    rw [kind]
    exact beq_iff_eq.1 serves
  · cases serves

theorem methodAccessor_eq_ok {m : MethodDeclaration σ} {callee : MethodReference}
    {a : String × ClassName} (h : p.methodAccessor m callee s = .ok a s') :
    p.Equips s s' ∧ Serves s'.helpers callee.name (HelperKind.OfMethod callee) a := by
  obtain ⟨access, s₁, resolved, h⟩ := step_bind_eq_ok.1 h
  obtain ⟨⟨⟩, s₂, checked, h⟩ := step_bind_eq_ok.1 h
  obtain ⟨name', s₃, served, h⟩ := step_bind_eq_ok.1 h
  obtain ⟨rfl, rfl⟩ := step_pure_eq_ok.1 h
  obtain ⟨rfl, found⟩ := resolveMethod_eq_ok resolved
  obtain ⟨rfl, granted⟩ := checkReach_eq_ok checked
  obtain ⟨equips, helper, mem, named, serves⟩ := helperFor_eq_ok (by simp [helperLetters]) served
    (by simp) ⟨access, found, granted⟩
  refine ⟨equips, rfl, helper, mem, named, ?_⟩
  split at serves
  · rename_i kind
    rw [kind]
    exact (Bool.and_eq_true_iff.1 serves).imp beq_iff_eq.1 beq_iff_eq.1
  · cases serves

/-! ## The phases of planning -/

/-- Fields are planned before helpers. -/
theorem addFields_bare {injections : List (Injection σ)} {declared : List (MethodDeclaration σ)}
    (h : p.addFields injections s = .ok declared s') :
    s'.helpers = s.helpers ∧ s'.nextHelper = s.nextHelper :=
  ((addFields_maintains (I := fun t => t.helpers = s.helpers ∧ t.nextHelper = s.nextHelper)
    (fun _ _ => id) fun _ _ _ _ => id).ok _ _ _ ⟨rfl, rfl⟩ h).1

theorem addMethod_equips {d : MethodDeclaration σ} (h : p.addMethod d s = .ok () s') :
    p.Equips s s' ∧ ∃ m, s'.methods = s.methods ++ [m] ∧ m.Equips s'.helpers d := by
  obtain ⟨m, given, adds, -⟩ := addMethod_eq_ok h
  obtain ⟨-, -, -, -, fields, methods, s₁, s₂, reached, reached', rfl⟩ := steps_of_addMethod h
  obtain ⟨served, first⟩ := step_mapM_forall₂ Equips.refl (fun _ _ _ => Equips.trans)
    (fun _ _ _ _ made => (fieldAccessor_eq_ok made).1) reached
  obtain ⟨served', second⟩ := step_mapM_forall₂ Equips.refl (fun _ _ _ => Equips.trans)
    (fun _ _ _ _ made => (methodAccessor_eq_ok made).1) reached'
  refine ⟨(first.trans second).trans ⟨[], ⟨List.Subset.refl _, ?_, ?_, rfl, trivial⟩, ?_⟩, _,
    congrArg (· ++ [_]) (List.append_inj_left' adds.methods rfl), rfl, rfl, ?_, ?_⟩
  · exact List.subset_append_left _ _
  · exact (List.append_nil _).symm
  · exact List.forall_mem_nil _
  · refine served.imp fun name a ⟨t, t', _, made, later⟩ => ?_
    exact (fieldAccessor_eq_ok made).2.mono (List.Subset.trans later.helpers second.helpers)
  · refine served'.imp fun callee a ⟨t, t', _, made, later⟩ => ?_
    exact (methodAccessor_eq_ok made).2.mono later.helpers

theorem addMethods_equip {declared : List (MethodDeclaration σ)}
    (h : (declared.forM p.addMethod : Step σ PUnit) s = .ok ⟨⟩ s') :
    p.Equips s s' ∧ ∃ methods, s'.methods = s.methods ++ methods ∧
      List.Forall₂ (PlannedMethod.Equips s'.helpers) declared methods := by
  induction declared generalizing s with
  | nil =>
    cases h
    exact ⟨.refl _, [], (List.append_nil _).symm, .nil⟩
  | cons d declared ih =>
    obtain ⟨⟨⟩, s₁, first, h⟩ := step_bind_eq_ok.1 h
    obtain ⟨equips, m, planned, served⟩ := addMethod_equips first
    obtain ⟨equips', methods, planned', served'⟩ := ih h
    refine ⟨equips.trans equips', m :: methods, ?_, .cons (served.mono equips'.helpers) served'⟩
    rw [planned', planned, List.append_assoc, List.singleton_append]

theorem intercept_plans {m : MethodSite} {injections : List (Injection σ)}
    {i? : Option PlannedIntercept} (h : p.intercept m injections s = .ok i? s') :
    p.Plans s s' (i?.toList.map (·.helper)) := by
  cases intercepted_of_intercept h with
  | idle => exact .nothing _
  | planned asked method hosted bodied made named numbered =>
    exact ⟨List.Subset.refl _, List.Subset.refl _, rfl, rfl,
      ⟨"Call", by simp [helperLetters], numbered⟩, trivial⟩

theorem intercepts_plan {asked : List (MethodSite × List (Injection σ))}
    {is : List (Option PlannedIntercept)}
    (h : (asked.mapM fun a => p.intercept a.1 a.2 : Step σ (List (Option PlannedIntercept))) s =
      .ok is s') : p.Plans s s' ((is.filterMap id).map (·.helper)) := by
  induction asked generalizing s is with
  | nil =>
    obtain ⟨rfl, rfl⟩ := step_pure_eq_ok.1 h
    exact .nothing s
  | cons a asked ih =>
    obtain ⟨i?, rest, s₁, first, second, rfl⟩ := step_mapM_cons_eq_ok.1 h
    have whole := (intercept_plans first).trans (ih second)
    cases i? with
    | none => exact whole
    | some i => exact whole

end Planner

/-! ## The plan -/

/-- The helpers of a plan are accessors for members that they reach, and behind them those of the
interceptions. They bear the numbers that follow. -/
theorem Plan.helpers_of_ofComposition {options : Options} {c : Composition σ} {l l' : Ledger σ}
    {plan : Plan} (h : Plan.ofComposition options c l = .ok plan l') :
    Numbered c.site.name l.nextHelper plan.helpers ∧
      l'.nextHelper = l.nextHelper + plan.helpers.length ∧
        ∃ accessors, plan.helpers = accessors ++ plan.intercepts.map (·.helper) ∧
          ∀ a ∈ accessors, Reaches c.site options plan.fields plan.methods a.kind := by
  obtain ⟨declared, is, s₁, s₂, s, first, second, third, rfl, rfl⟩ := ofComposition_eq_ok h
  obtain ⟨none, start⟩ := Planner.addFields_bare first
  obtain ⟨accessors, plans, reached⟩ := (Planner.addMethods_equip second).1
  have calls := Planner.intercepts_plan third
  have whole := plans.trans calls
  have helpers := whole.helpers
  rw [none, List.nil_append] at helpers
  dsimp only at start ⊢
  rw [helpers, ← start]
  exact ⟨whole.numbered, whole.next, accessors, rfl,
    fun a mem => (reached a mem).mono calls.fields calls.methods⟩

/-- Added methods are planned as they are declared, with accessors for what they use. -/
theorem Plan.equips_of_ofComposition {options : Options} {c : Composition σ} {l l' : Ledger σ}
    {plan : Plan} (h : Plan.ofComposition options c l = .ok plan l') :
    List.Forall₂ (PlannedMethod.Equips plan.helpers) (c.additions.filterMap (·.method?))
      plan.methods := by
  obtain ⟨declared, is, s₁, s₂, s, first, second, third, rfl, rfl⟩ := ofComposition_eq_ok h
  obtain ⟨rfl, fields, given, adds, -⟩ := Planner.addFields_eq_ok first
  obtain ⟨-, methods, planned, equips⟩ := Planner.addMethods_equip second
  have same : s.methods = methods := by
    rw [(Planner.intercepts_eq_ok third).1, planned, adds.methods]
    rfl
  have more : s₂.helpers ⊆ s.helpers := by
    rw [(Planner.intercepts_plan third).helpers]
    exact List.subset_append_left _ _
  dsimp only
  rw [same]
  exact equips.imp fun d m equips => equips.mono more

end Weft.Weave
