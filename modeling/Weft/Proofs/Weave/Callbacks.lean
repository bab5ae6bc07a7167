import Weft.Proofs.Call.Registration
import Weft.Proofs.Weave.Declarations
import Weft.Proofs.Weave.Planning

/-!
# The callbacks of a plan

A plan registers one callback for each computed field, for each added method and for each
intercepted method, in this order, and nothing else. What it plans carries the token under which
the registry holds the initializer, the body or the chain of the very injection that it stands for.
The names of planned fields and of their holders do not meet, as long as a holder is planned after
the fields that could have its name.
-/

namespace Weft

variable {σ : Type}

/-! ## What is declared -/

/-- The field that an injection declares. -/
def Injection.field? : Injection σ → Option (FieldDeclaration σ)
  | .addField f => some f
  | _ => none

/-- The method that an injection declares. -/
def Injection.method? : Injection σ → Option (MethodDeclaration σ)
  | .addMethod m => some m
  | _ => none

/-- The methods at which something is asked for, each with what is asked for. -/
def Composition.asked (c : Composition σ) : List (MethodSite × List (Injection σ)) :=
  c.methods.filter fun a => !a.2.all (·.isNothing)

namespace Weave

/-- The token of a computed field. -/
def FieldInit.token? : FieldInit → Option String
  | .callback token _ => some token
  | _ => none

/-- The holder of a computed field. -/
def FieldInit.holder? : FieldInit → Option String
  | .callback _ holder => some holder
  | _ => none

/-- The tokens of a plan, in the order in which they are given out. -/
def Plan.tokens (p : Plan) : List String :=
  p.fields.filterMap (·.init.token?) ++ p.methods.map (·.token) ++ p.intercepts.map (·.token)

/-- The field is planned as it is declared; a literal is the constant of a static field, and stored
in one of an object. -/
def PlannedField.Follows (d : FieldDeclaration σ) (f : PlannedField) : Prop :=
  f.access = d.access ∧ f.name = d.name ∧ f.type = d.type ∧ match d.initial with
    | .none => f.init = .default
    | .constant value => f.init = if d.access.isStatic then .constant value else .store value
    | .computed _ => ∃ token, f.init = .callback token (holderName d.name)

/-! ## What is planned carries its callback -/

section Carries

variable (R : String → Callback σ → Prop)

/-- The field is planned as it is declared, with a token for its initializer if it is computed. -/
def PlannedField.Carries (d : FieldDeclaration σ) (f : PlannedField) : Prop :=
  f.access = d.access ∧ f.name = d.name ∧ f.type = d.type ∧ match d.initial with
    | .computed i => ∃ token, f.init = .callback token (holderName d.name) ∧ R token (.initializer i)
    | _ => f.init.token? = none

/-- The method is planned as it is declared, with a token for its body. -/
def PlannedMethod.Carries (d : MethodDeclaration σ) (m : PlannedMethod) : Prop :=
  m.name = d.name ∧ m.descriptor = d.descriptor ∧ R m.token (.addedMethod d.code)

/-- The method is intercepted for what is asked for there, with a token for the chain of it. -/
def PlannedIntercept.Carries (asked : MethodSite × List (Injection σ)) (i : PlannedIntercept) :
    Prop :=
  i.site = asked.1 ∧ ∃ chain, Chain.ofInjections asked.1 asked.2 = .ok chain ∧
    R i.token (.interception chain)

/-- All that is composed is planned, in its order, with tokens for the callbacks. -/
structure Plan.Carries (c : Composition σ) (plan : Plan) : Prop where
  fields : List.Forall₂ (PlannedField.Carries R) (c.additions.filterMap (·.field?)) plan.fields
  methods : List.Forall₂ (PlannedMethod.Carries R) (c.additions.filterMap (·.method?)) plan.methods
  intercepts : List.Forall₂ (PlannedIntercept.Carries R) c.asked plan.intercepts

end Carries

section Mono

variable {R S : String → Callback σ → Prop} (le : ∀ token c, R token c → S token c)

include le

theorem PlannedField.Carries.mono {d : FieldDeclaration σ} {f : PlannedField}
    (h : f.Carries R d) : f.Carries S d := by
  obtain ⟨access, name, type, init⟩ := h
  refine ⟨access, name, type, ?_⟩
  split at init
  · obtain ⟨token, planned, held⟩ := init
    exact ⟨token, planned, le _ _ held⟩
  · exact init

theorem PlannedMethod.Carries.mono {d : MethodDeclaration σ} {m : PlannedMethod}
    (h : m.Carries R d) : m.Carries S d := ⟨h.1, h.2.1, le _ _ h.2.2⟩

theorem PlannedIntercept.Carries.mono {a : MethodSite × List (Injection σ)} {i : PlannedIntercept}
    (h : i.Carries R a) : i.Carries S a := by
  obtain ⟨site, chain, made, held⟩ := h
  exact ⟨site, chain, made, le _ _ held⟩

theorem Plan.Carries.mono {c : Composition σ} {plan : Plan} (h : plan.Carries R c) :
    plan.Carries S c where
  fields := h.fields.imp fun _ _ => PlannedField.Carries.mono le
  methods := h.methods.imp fun _ _ => PlannedMethod.Carries.mono le
  intercepts := h.intercepts.imp fun _ _ => PlannedIntercept.Carries.mono le

end Mono

/-! ## Names of fields and methods -/

/-- The field does not have the name of one of the class, and neither does its holder. -/
structure PlannedField.FreeIn (s : ClassSite) (f : PlannedField) : Prop where
  name : ∀ t ∈ s.fieldTypes, t.1 ≠ f.name
  holder : ∀ holder, f.init.holder? = some holder → ∀ t ∈ s.fieldTypes, t.1 ≠ holder

/-- The later field has another name than the earlier, and so has its holder. -/
def PlannedField.Apart (earlier later : PlannedField) : Prop :=
  earlier.name ≠ later.name ∧ ∀ holder, later.init.holder? = some holder → earlier.name ≠ holder

/-- Planned fields have names of their own, and holders none that was planned before. -/
structure Plan.NamesFields (s : ClassSite) (fields : List PlannedField) : Prop where
  free : ∀ f ∈ fields, f.FreeIn s
  apart : fields.Pairwise PlannedField.Apart

/-- The method does not have the name and the descriptor of one of the class. -/
def PlannedMethod.FreeIn (s : ClassSite) (m : PlannedMethod) : Prop :=
  ∀ t ∈ s.methodTypes, ¬ (t.1 = m.name ∧ t.2.descriptor = m.descriptor.descriptor)

/-- The methods differ in their names or in their descriptors. -/
def PlannedMethod.Apart (earlier later : PlannedMethod) : Prop :=
  ¬ (earlier.name = later.name ∧ earlier.descriptor.descriptor = later.descriptor.descriptor)

/-- Planned methods have names of their own, or descriptors. -/
structure Plan.NamesMethods (s : ClassSite) (methods : List PlannedMethod) : Prop where
  free : ∀ m ∈ methods, m.FreeIn s
  apart : methods.Pairwise PlannedMethod.Apart

namespace Planner

variable {p : Planner} {s s' : Planning σ}

theorem hasField_eq_false {name : String} (h : p.hasField name s = false) :
    (∀ t ∈ p.site.fieldTypes, t.1 ≠ name) ∧ ∀ f ∈ s.fields, f.name ≠ name := by
  simp only [hasField, Bool.or_eq_false_iff, List.any_eq_false, beq_iff_eq] at h
  exact h

theorem checkFieldName_eq_ok {name : String} (h : p.checkFieldName name s = .ok () s') :
    s' = s ∧ p.hasField name s = false := by
  unfold checkFieldName at h
  rw [step_get_bind] at h
  split at h
  · cases h
  · rename_i free
    cases h
    exact ⟨rfl, Bool.eq_false_iff.2 free⟩

/-! ## Steps of planning -/

/-- The helper is nested in the owner under a name that tells what it is for. -/
def NamesHelper (owner : ClassName) (h : Helper) : Prop :=
  ∃ letter ∈ helperLetters, ∃ n, h.name = owner.nested (helperSuffix letter n)

theorem nested_helperSuffix (owner : ClassName) (letter : String) (n : Nat) :
    owner.nested (helperSuffix letter n) = ⟨owner.internal ++ ("$cw$" ++ letter) ++ toString n⟩ := by
  refine congrArg ClassName.mk ?_
  show owner.internal ++ "$" ++ helperSuffix letter n = _
  rw [show "$cw$" = "$" ++ "cw$" from rfl]
  simp only [String.append_assoc]
  rfl

/-- What a step adds to the fields and the methods, the callbacks that it registers, and how it names
helpers. -/
structure Adds (p : Planner) (s s' : Planning σ) (fields : List PlannedField)
    (methods : List PlannedMethod) (given : List (String × Callback σ)) : Prop where
  fields : s'.fields = s.fields ++ fields
  methods : s'.methods = s.methods ++ methods
  gains : s.registry.Gains given s'.registry
  helpers : ∀ h ∈ s'.helpers, h ∈ s.helpers ∨ NamesHelper p.owner h

theorem Adds.nothing (s : Planning σ) : p.Adds s s [] [] [] :=
  ⟨(List.append_nil _).symm, (List.append_nil _).symm, .refl _, fun _ => .inl⟩

theorem Adds.trans {s'' : Planning σ} {fields fields' : List PlannedField}
    {methods methods' : List PlannedMethod} {given given' : List (String × Callback σ)}
    (h : p.Adds s s' fields methods given) (h' : p.Adds s' s'' fields' methods' given') :
    p.Adds s s'' (fields ++ fields') (methods ++ methods') (given ++ given') where
  fields := by rw [h'.fields, h.fields, List.append_assoc]
  methods := by rw [h'.methods, h.methods, List.append_assoc]
  gains := h.gains.trans h'.gains
  helpers x mem := (h'.helpers x mem).elim (h.helpers x) .inr

/-- A helper that is planned is named so. -/
theorem mem_addHelper (s : Planning σ) {letter : String} (known : letter ∈ helperLetters)
    (kind : HelperKind) :
    ∀ h ∈ s.helpers ++ [⟨p.owner.nested (helperSuffix letter s.nextHelper), kind⟩],
      h ∈ s.helpers ∨ NamesHelper p.owner h := by
  refine fun h mem => (List.mem_append.1 mem).imp_right fun mem => ?_
  rw [List.mem_singleton.1 mem]
  exact ⟨letter, known, _, rfl⟩

theorem takesHelpers_adds (fields : List PlannedField) (methods : List PlannedMethod)
    (given : List (String × Callback σ)) :
    p.TakesHelpers fun s' => p.Adds s s' fields methods given :=
  fun s' kind _ known before => ⟨before.fields, before.methods, before.gains, fun h mem =>
    (mem_addHelper s' known kind h mem).elim (before.helpers h) .inr⟩

/-- The callbacks are among those given. -/
abbrev Among (given : List (String × Callback σ)) (token : String) (c : Callback σ) : Prop :=
  (token, c) ∈ given

theorem among_append_left {given : List (String × Callback σ)}
    (given' : List (String × Callback σ)) (token : String) (c : Callback σ)
    (h : Among given token c) : Among (given ++ given') token c := List.mem_append_left _ h

theorem among_append_right (given : List (String × Callback σ))
    {given' : List (String × Callback σ)} (token : String) (c : Callback σ)
    (h : Among given' token c) : Among (given ++ given') token c := List.mem_append_right _ h

theorem fieldInit_eq_ok {d : FieldDeclaration σ} {init : FieldInit}
    (h : p.fieldInit d s = .ok init s') :
    ∃ given, p.Adds s s' [] [] given ∧ given.map (·.1) = init.token?.toList ∧
      (∀ holder, init.holder? = some holder → p.hasField holder s = false) ∧
      PlannedField.Carries (Among given) d ⟨d.access, d.name, d.type, init⟩ ∧
      PlannedField.Follows d ⟨d.access, d.name, d.type, init⟩ := by
  unfold fieldInit at h
  unfold PlannedField.Carries PlannedField.Follows
  have plain (init : FieldInit) (none : init.token? = none) (bare : init.holder? = Option.none) :
      ∃ given, p.Adds s s [] [] given ∧ given.map (·.1) = init.token?.toList ∧
        (∀ holder, init.holder? = some holder → p.hasField holder s = false) ∧
          init.token? = Option.none :=
    ⟨[], .nothing s, by rw [none]; rfl, (fun holder held => by rw [bare] at held; cases held), none⟩
  cases initial : d.initial with
  | none =>
    rw [initial] at h
    obtain ⟨rfl, rfl⟩ := step_pure_eq_ok.1 h
    obtain ⟨given, adds, tokens, free, none⟩ := plain .default rfl rfl
    exact ⟨given, adds, tokens, free, ⟨rfl, rfl, rfl, none⟩, rfl, rfl, rfl, rfl⟩
  | constant value =>
    rw [initial] at h
    dsimp only at h
    split at h
    · cases h
    split at h
    · rename_i static
      obtain ⟨rfl, rfl⟩ := step_pure_eq_ok.1 h
      obtain ⟨given, adds, tokens, free, none⟩ := plain (.constant value) rfl rfl
      exact ⟨given, adds, tokens, free, ⟨rfl, rfl, rfl, none⟩, rfl, rfl, rfl, (if_pos static).symm⟩
    · rename_i instances
      obtain ⟨rfl, rfl⟩ := step_pure_eq_ok.1 h
      obtain ⟨given, adds, tokens, free, none⟩ := plain (.store value) rfl rfl
      exact ⟨given, adds, tokens, free, ⟨rfl, rfl, rfl, none⟩, rfl, rfl, rfl,
        (if_neg instances).symm⟩
  | computed initializer =>
    rw [initial] at h
    obtain ⟨⟨⟩, s₁, checked, rest⟩ := step_bind_eq_ok.1 h
    obtain ⟨rfl, free⟩ := checkFieldName_eq_ok checked
    obtain ⟨token, s₂, registered, made⟩ := step_bind_eq_ok.1 rest
    obtain ⟨rfl, rfl⟩ := register_eq_ok registered
    obtain ⟨rfl, rfl⟩ := step_pure_eq_ok.1 made
    refine ⟨_, ⟨(List.append_nil _).symm, (List.append_nil _).symm,
      Registry.Gains.single _ (.initializer initializer), fun _ => .inl⟩, rfl, fun holder held => ?_,
      ⟨rfl, rfl, rfl, _, rfl, List.mem_singleton_self _⟩, rfl, rfl, rfl, _, rfl⟩
    cases held
    exact free

theorem addField_eq_ok {d : FieldDeclaration σ} (h : p.addField d s = .ok () s') :
    ∃ f given, p.Adds s s' [f] [] given ∧ given.map (·.1) = f.init.token?.toList ∧
      f.Carries (Among given) d ∧ f.Follows d ∧ f.FreeIn p.site ∧ ∀ g ∈ s.fields, g.Apart f := by
  unfold addField at h
  dsimp only at h
  split at h
  · cases h
  obtain ⟨⟨⟩, s₁, checked, rest⟩ := step_bind_eq_ok.1 h
  obtain ⟨rfl, named⟩ := checkFieldName_eq_ok checked
  split at rest
  · cases rest
  obtain ⟨init, s₂, made, planned⟩ := step_bind_eq_ok.1 rest
  cases planned
  obtain ⟨given, adds, tokens, held, carries, follows⟩ := fieldInit_eq_ok made
  obtain ⟨others, planned⟩ := hasField_eq_false named
  refine ⟨_, given, ⟨?_, adds.methods, adds.gains, adds.helpers⟩, tokens, carries, follows,
    ⟨others, ?_⟩, ?_⟩
  · show s₂.fields ++ [_] = _
    rw [adds.fields, List.append_nil]
  · exact fun holder held' => (hasField_eq_false (held holder held')).1
  · exact fun g mem => ⟨planned g mem, fun holder held' =>
      (hasField_eq_false (held holder held')).2 g mem⟩

/-- The fields among injections are planned in their order, the methods are answered. -/
theorem addFields_eq_ok {injections : List (Injection σ)} {declared : List (MethodDeclaration σ)}
    (h : p.addFields injections s = .ok declared s') :
    declared = injections.filterMap (·.method?) ∧ ∃ fields given, p.Adds s s' fields [] given ∧
      given.map (·.1) = fields.filterMap (·.init.token?) ∧
      List.Forall₂ (PlannedField.Carries (Among given)) (injections.filterMap (·.field?)) fields ∧
      List.Forall₂ PlannedField.Follows (injections.filterMap (·.field?)) fields ∧
      (∀ f ∈ fields, f.FreeIn p.site) ∧ fields.Pairwise PlannedField.Apart ∧
      ∀ g ∈ s.fields, ∀ f ∈ fields, g.Apart f := by
  induction injections generalizing s declared with
  | nil =>
    obtain ⟨rfl, rfl⟩ := step_pure_eq_ok.1 h
    exact ⟨rfl, [], [], .nothing s, rfl, .nil, .nil, (fun f mem => nomatch mem), .nil,
      fun g _ f mem => nomatch mem⟩
  | cons i rest ih =>
    cases i with
    | addField d =>
      obtain ⟨⟨⟩, s₁, first, h⟩ := step_bind_eq_ok.1 h
      obtain ⟨f, given, adds, tokens, carries, follows, free, apart⟩ := addField_eq_ok first
      obtain ⟨same, fields, given', adds', tokens', carries', follows', free', pairwise, apart'⟩ :=
        ih h
      have older : ∀ g ∈ s.fields, g ∈ s₁.fields := fun g mem => by
        rw [adds.fields]
        exact List.mem_append_left _ mem
      have newest : f ∈ s₁.fields := by
        rw [adds.fields]
        exact List.mem_append_right _ (List.mem_singleton_self f)
      refine ⟨same, f :: fields, given ++ given', adds.trans adds', ?_, ?_, .cons follows follows',
        ?_, ?_, ?_⟩
      · rw [List.map_append, tokens, tokens', List.filterMap_cons]
        cases f.init.token? <;> rfl
      · exact .cons (carries.mono (among_append_left given'))
          (carries'.imp fun _ _ => PlannedField.Carries.mono (among_append_right given))
      · exact List.forall_mem_cons.2 ⟨free, free'⟩
      · exact List.pairwise_cons.2 ⟨fun g mem => apart' f newest g mem, pairwise⟩
      · exact fun g mem => List.forall_mem_cons.2 ⟨apart g mem, apart' g (older g mem)⟩
    | addMethod d =>
      obtain ⟨methods, s₁, first, h⟩ := step_bind_eq_ok.1 h
      obtain ⟨rfl, rfl⟩ := step_pure_eq_ok.1 h
      obtain ⟨rfl, planned⟩ := ih first
      exact ⟨rfl, planned⟩
    | nothing target => exact ih h
    | ignoreMethod callback => cases h
    | preHook callback => cases h
    | postHook callback => cases h
    | replaceMethod callback => cases h
    | errorRecovery callback => cases h

theorem addMethod_eq_ok {d : MethodDeclaration σ} (h : p.addMethod d s = .ok () s') :
    ∃ m given, p.Adds s s' [] [m] given ∧ given.map (·.1) = [m.token] ∧
      m.Carries (Among given) d ∧ m.name.startsWith "<" = false ∧ m.FreeIn p.site ∧
      ∀ g ∈ s.methods, g.Apart m := by
  obtain ⟨plain, -, -, free, fields, methods, s₁, s₂, reached, reached', rfl⟩ :=
    steps_of_addMethod h
  simp only [hasMethod, Bool.or_eq_false_iff, List.any_eq_false, Bool.and_eq_true,
    beq_iff_eq] at free
  have still := takesHelpers_adds (p := p) (s := s) [] [] []
  have first := ((Maintains.mapM fun name _ => fieldAccessor_maintains still d name).ok _ _ _
    (.nothing s) reached).1
  have second := ((Maintains.mapM fun callee _ => methodAccessor_maintains still d callee).ok _ _ _
    first reached').1
  refine ⟨⟨d.access ∪ .accSynthetic, d.name, d.descriptor, d.throws, _, fields, methods⟩, _,
    ⟨second.fields, ?_, second.gains.trans (.single _ (.addedMethod d.code)), second.helpers⟩, rfl,
    ⟨rfl, rfl, List.mem_cons_self⟩, plain, free.1.1, free.1.2⟩
  show s₂.methods ++ [_] = _
  rw [second.methods, List.append_nil]

theorem addMethods_eq_ok {declared : List (MethodDeclaration σ)}
    (h : (declared.forM p.addMethod : Step σ PUnit) s = .ok ⟨⟩ s') :
    ∃ methods given, p.Adds s s' [] methods given ∧ given.map (·.1) = methods.map (·.token) ∧
      List.Forall₂ (PlannedMethod.Carries (Among given)) declared methods ∧
      (∀ m ∈ methods, m.name.startsWith "<" = false) ∧ Plan.NamesMethods p.site methods ∧
      ∀ g ∈ s.methods, ∀ m ∈ methods, g.Apart m := by
  induction declared generalizing s with
  | nil =>
    cases h
    exact ⟨[], [], .nothing _, rfl, .nil, List.forall_mem_nil _, ⟨List.forall_mem_nil _, .nil⟩,
      fun g _ => List.forall_mem_nil _⟩
  | cons d declared ih =>
    obtain ⟨⟨⟩, s₁, first, h⟩ := step_bind_eq_ok.1 h
    obtain ⟨m, given, adds, tokens, carries, plain, free, apart⟩ := addMethod_eq_ok first
    obtain ⟨methods, given', adds', tokens', carries', plain', names, apart'⟩ := ih h
    have older : ∀ g ∈ s.methods, g ∈ s₁.methods := fun g mem => by
      rw [adds.methods]
      exact List.mem_append_left _ mem
    have newest : m ∈ s₁.methods := by
      rw [adds.methods]
      exact List.mem_append_right _ (List.mem_singleton_self m)
    refine ⟨m :: methods, given ++ given', adds.trans adds', ?_, .cons ?_ ?_,
      List.forall_mem_cons.2 ⟨plain, plain'⟩, ⟨?_, ?_⟩, ?_⟩
    · rw [List.map_append, tokens, tokens']
      rfl
    · exact carries.mono (among_append_left given')
    · exact carries'.imp fun _ _ => PlannedMethod.Carries.mono (among_append_right given)
    · exact List.forall_mem_cons.2 ⟨free, names.free⟩
    · exact List.pairwise_cons.2 ⟨apart' m newest, names.apart⟩
    · exact fun g mem => List.forall_mem_cons.2 ⟨apart g mem, apart' g (older g mem)⟩

theorem intercept_gives {m : MethodSite} {injections : List (Injection σ)}
    {i? : Option PlannedIntercept} (h : p.intercept m injections s = .ok i? s') :
    ∃ given, p.Adds s s' [] [] given ∧
      ((injections.all (·.isNothing) = true ∧ i? = none ∧ given = []) ∨
        injections.all (·.isNothing) = false ∧ ∃ i, i? = some i ∧ given.map (·.1) = [i.token] ∧
          i.Carries (Among given) (m, injections)) := by
  cases intercepted_of_intercept h with
  | idle nothing => exact ⟨[], .nothing s, .inl ⟨nothing, rfl, rfl⟩⟩
  | @planned chain keptAs helper asked method hosted bodied made named numbered =>
    subst numbered
    exact ⟨_, ⟨(List.append_nil _).symm, (List.append_nil _).symm,
      Registry.Gains.single _ (.interception chain), mem_addHelper s (by simp [helperLetters]) _⟩,
      .inr ⟨asked, _, rfl, rfl, rfl, chain, made, List.mem_singleton_self _⟩⟩

theorem intercepts_give {methods : List (MethodSite × List (Injection σ))}
    {is : List (Option PlannedIntercept)}
    (h : (methods.mapM fun a => p.intercept a.1 a.2 : Step σ (List (Option PlannedIntercept))) s =
      .ok is s') :
    ∃ given, p.Adds s s' [] [] given ∧ given.map (·.1) = (is.filterMap id).map (·.token) ∧
      List.Forall₂ (PlannedIntercept.Carries (Among given))
        (methods.filter fun a => !a.2.all (·.isNothing)) (is.filterMap id) := by
  induction methods generalizing s is with
  | nil =>
    obtain ⟨rfl, rfl⟩ := step_pure_eq_ok.1 h
    exact ⟨[], .nothing s, rfl, .nil⟩
  | cons a methods ih =>
    obtain ⟨i?, rest, s₁, first, second, rfl⟩ := step_mapM_cons_eq_ok.1 h
    obtain ⟨given, adds, planned⟩ := intercept_gives first
    obtain ⟨given', adds', tokens, carries⟩ := ih second
    refine ⟨given ++ given', adds.trans adds', ?_⟩
    rcases planned with ⟨nothing, rfl, rfl⟩ | ⟨something, i, rfl, token, held⟩
    · rw [List.filter_cons_of_neg (by simp [nothing])]
      exact ⟨tokens, carries⟩
    · rw [List.filter_cons_of_pos (by simp [something])]
      refine ⟨?_, .cons ?_ ?_⟩
      · rw [List.map_append, token, tokens]
        rfl
      · exact held.mono (among_append_left given')
      · exact carries.imp fun _ _ => PlannedIntercept.Carries.mono (among_append_right given)

end Planner

/-! ## The plan -/

/-- What a plan plans and registers: one callback for each of its tokens, in their order. -/
structure Plan.Registers (c : Composition σ) (plan : Plan) (given : List (String × Callback σ)) :
    Prop where
  tokens : given.map (·.1) = plan.tokens
  carries : plan.Carries (Planner.Among given) c
  follows : List.Forall₂ PlannedField.Follows (c.additions.filterMap (·.field?)) plan.fields
  names : Plan.NamesFields c.site plan.fields
  namesMethods : Plan.NamesMethods c.site plan.methods
  /-- No method that is planned is a constructor. -/
  plain : ∀ m ∈ plan.methods, m.name.startsWith "<" = false
  helpers : ∀ h ∈ plan.helpers, Planner.NamesHelper c.site.name h

theorem Plan.registers_of_ofComposition {options : Options} {c : Composition σ} {l l' : Ledger σ}
    {plan : Plan} (h : Plan.ofComposition options c l = .ok plan l') :
    ∃ given, l.registry.Gains given l'.registry ∧ plan.Registers c given := by
  obtain ⟨declared, is, s₁, s₂, s, first, second, third, rfl, rfl⟩ := ofComposition_eq_ok h
  obtain ⟨rfl, fields, given₁, adds₁, tokens₁, carries₁, follows, free, apart, -⟩ :=
    Planner.addFields_eq_ok first
  obtain ⟨methods, given₂, adds₂, tokens₂, carries₂, plain, namesMethods, -⟩ :=
    Planner.addMethods_eq_ok second
  obtain ⟨given₃, adds₃, tokens₃, carries₃⟩ := Planner.intercepts_give third
  have adds := (adds₁.trans adds₂).trans adds₃
  have planned_fields : s.fields = fields := by simpa using adds.fields
  have planned_methods : s.methods = methods := by simpa using adds.methods
  refine ⟨given₁ ++ given₂ ++ given₃, adds.gains, ?_⟩
  rw [planned_fields, planned_methods]
  constructor
  case tokens =>
    rw [List.map_append, List.map_append, tokens₁, tokens₂, tokens₃]
    rfl
  case carries =>
    constructor
    · exact carries₁.imp fun _ _ h => (h.mono (Planner.among_append_left given₂)).mono
        (Planner.among_append_left given₃)
    · exact carries₂.imp fun _ _ h => (h.mono (Planner.among_append_right given₁)).mono
        (Planner.among_append_left given₃)
    · exact carries₃.imp fun _ _ h => h.mono (Planner.among_append_right _)
  case follows => exact follows
  case names => exact ⟨free, apart⟩
  case namesMethods => exact namesMethods
  case plain => exact plain
  case helpers => exact fun h mem => (adds.helpers h mem).resolve_left List.not_mem_nil

end Weave

end Weft
