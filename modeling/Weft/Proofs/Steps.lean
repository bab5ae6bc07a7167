import Mathlib.Data.List.Forall2
import Weft.Edit

/-!
# Steps that succeed

What it means that a sequence of steps succeeds, for answers that may be errors and for edits of a
state: each step does, on what the one before it left.
-/

namespace Weft

/-! ## Answers -/

section Answers

variable {ε α β : Type}

theorem except_bind_eq_ok {x : Except ε α} {f : α → Except ε β} {b : β} :
    (x >>= f) = .ok b ↔ ∃ a, x = .ok a ∧ f a = .ok b := by
  cases x with
  | error e => simp [bind, Except.bind]
  | ok a => simp [bind, Except.bind]

theorem except_map_eq_ok {x : Except ε α} {f : α → β} {b : β} :
    f <$> x = .ok b ↔ ∃ a, x = .ok a ∧ f a = b := by
  cases x with
  | error e => simp [Functor.map, Except.map]
  | ok a => simp [Functor.map, Except.map]

theorem except_mapError_eq_ok {ε' : Type} {f : ε → ε'} {x : Except ε α} {a : α}
    (h : x.mapError f = .ok a) : x = .ok a := by
  cases x with
  | error e => cases h
  | ok b =>
    cases h
    rfl

theorem except_toOption_eq_some {x : Except ε α} {a : α} : x.toOption = some a ↔ x = .ok a := by
  cases x <;> simp [Except.toOption]

theorem except_pure_eq_ok {a b : α} : (pure a : Except ε α) = .ok b ↔ a = b := by
  simp [pure, Except.pure]

theorem except_mapM_eq_ok {f : α → Except ε β} {as : List α} {bs : List β} :
    as.mapM f = .ok bs ↔ List.Forall₂ (fun a b => f a = .ok b) as bs := by
  induction as generalizing bs with
  | nil => cases bs <;> simp [pure, Except.pure]
  | cons a as ih =>
    simp only [List.mapM_cons, except_bind_eq_ok, except_pure_eq_ok, ih, List.forall₂_cons_left_iff]
    constructor
    · rintro ⟨b, hb, bs', hbs, rfl⟩
      exact ⟨b, bs', hb, hbs, rfl⟩
    · rintro ⟨b, bs', hb, hbs, rfl⟩
      exact ⟨b, hb, bs', hbs, rfl⟩

theorem forall₂_mem_left {R : α → β → Prop} {as : List α} {bs : List β} (h : List.Forall₂ R as bs)
    {a : α} (mem : a ∈ as) : ∃ b ∈ bs, R a b := by
  induction h with
  | nil => cases mem
  | cons head _ ih =>
    rcases List.mem_cons.1 mem with rfl | mem
    · exact ⟨_, List.mem_cons_self, head⟩
    · obtain ⟨b, hb, related⟩ := ih mem
      exact ⟨b, List.mem_cons_of_mem _ hb, related⟩

theorem forall₂_mem_right {R : α → β → Prop} {as : List α} {bs : List β}
    (h : List.Forall₂ R as bs) {b : β} (mem : b ∈ bs) : ∃ a ∈ as, R a b :=
  forall₂_mem_left h.flip mem

theorem exists_forall₂ {R : α → β → Prop} {as : List α} (each : ∀ a ∈ as, ∃ b, R a b) :
    ∃ bs, List.Forall₂ R as bs := by
  induction as with
  | nil => exact ⟨[], .nil⟩
  | cons a as ih =>
    obtain ⟨b, head⟩ := each a List.mem_cons_self
    obtain ⟨bs, tail⟩ := ih fun a' mem => each a' (List.mem_cons_of_mem a mem)
    exact ⟨b :: bs, .cons head tail⟩

theorem map_eq_of_forall₂ {γ : Type} {R : α → β → Prop} {f : α → γ} {g : β → γ} {as : List α}
    {bs : List β} (h : List.Forall₂ R as bs) (same : ∀ a b, R a b → g b = f a) :
    bs.map g = as.map f := by
  induction h with
  | nil => rfl
  | cons head _ ih => rw [List.map_cons, List.map_cons, same _ _ head, ih]

theorem forall₂_getElem? {R : α → β → Prop} {as : List α} {bs : List β} (h : List.Forall₂ R as bs)
    {n : Nat} {a : α} (found : as[n]? = some a) : ∃ b, bs[n]? = some b ∧ R a b := by
  induction h generalizing n with
  | nil => cases found
  | cons head _ ih =>
    cases n with
    | zero =>
      cases found
      exact ⟨_, rfl, head⟩
    | succ n => exact ih found

theorem forall₂_eq {R : α → α → Prop} {as bs : List α} (h : List.Forall₂ R as bs)
    (same : ∀ a ∈ as, ∀ b, R a b → b = a) : bs = as := by
  induction h with
  | nil => rfl
  | cons head _ ih =>
    rw [same _ List.mem_cons_self _ head, ih fun a mem => same a (List.mem_cons_of_mem _ mem)]

theorem forall₂_trans {γ : Type} {R : α → β → Prop} {S : β → γ → Prop} {T : α → γ → Prop}
    {as : List α} {bs : List β} {cs : List γ} (h : List.Forall₂ R as bs) (h' : List.Forall₂ S bs cs)
    (joined : ∀ a b c, R a b → S b c → T a c) : List.Forall₂ T as cs := by
  induction h generalizing cs with
  | nil =>
    cases h'
    exact .nil
  | cons head _ ih =>
    cases h' with
    | cons head' tail' => exact .cons (joined _ _ _ head head') (ih tail')

theorem forall₂_append_left {R : α → β → Prop} {as as' : List α} {bs : List β}
    (h : List.Forall₂ R (as ++ as') bs) :
    ∃ cs cs', bs = cs ++ cs' ∧ List.Forall₂ R as cs ∧ List.Forall₂ R as' cs' := by
  induction as generalizing bs with
  | nil => exact ⟨[], bs, rfl, .nil, h⟩
  | cons a as ih =>
    cases h with
    | cons head tail =>
      obtain ⟨cs, cs', rfl, first, second⟩ := ih tail
      exact ⟨_ :: cs, cs', rfl, .cons head first, second⟩

theorem length_le_flatMap {f : α → List β} {items : List α}
    (some : ∀ a ∈ items, 0 < (f a).length) : items.length ≤ (items.flatMap f).length := by
  induction items with
  | nil => exact Nat.le_refl 0
  | cons a items ih =>
    obtain ⟨first, some⟩ := List.forall_mem_cons.1 some
    have rest := ih some
    rw [List.flatMap_cons, List.length_append, List.length_cons]
    omega

theorem except_exists_ok {x : Except ε α} (h : x.toBool = true) : ∃ a, x = .ok a := by
  cases x with
  | ok a => exact ⟨a, rfl⟩
  | error e => cases h

theorem except_eq_ok_getD [Inhabited α] {x : Except ε α} (h : x.toBool = true) :
    x = .ok (x.toOption.getD default) := by
  obtain ⟨a, rfl⟩ := except_exists_ok h
  rfl

theorem except_ok_of_mem_mapM {f : α → Except ε β} {as : List α} {bs : List β}
    (h : as.mapM f = .ok bs) {a : α} (mem : a ∈ as) : ∃ b, f a = .ok b := by
  obtain ⟨b, -, made⟩ := forall₂_mem_left (except_mapM_eq_ok.1 h) mem
  exact ⟨b, made⟩

theorem except_forM_ok {f : α → Except ε Unit} {as : List α} (each : ∀ a ∈ as, f a = .ok ()) :
    as.forM f = .ok () := by
  induction as with
  | nil => rfl
  | cons a as ih =>
    show (f a >>= fun _ => as.forM f) = .ok ()
    rw [each a List.mem_cons_self]
    exact ih fun b hb => each b (List.mem_cons_of_mem a hb)

theorem except_forM_eq_ok {f : α → Except ε Unit} {as : List α} (h : as.forM f = .ok ()) :
    ∀ a ∈ as, f a = .ok () := by
  induction as with
  | nil => exact fun a mem => nomatch mem
  | cons a as ih =>
    obtain ⟨⟨⟩, first, rest⟩ := except_bind_eq_ok.1 h
    exact List.forall_mem_cons.2 ⟨first, ih rest⟩

end Answers

/-! ## Edits -/

section Edits

variable {ε σ α β : Type} {s s' s'' : σ}

theorem step_bind_ok {x : EStateM ε σ α} {f : α → EStateM ε σ β} {a : α} (h : x s = .ok a s') :
    (x >>= f) s = f a s' := by
  show EStateM.bind x f s = _
  simp only [EStateM.bind, h]

theorem step_bind_error {x : EStateM ε σ α} {f : α → EStateM ε σ β} {e : ε}
    (h : x s = .error e s') : (x >>= f) s = .error e s' := by
  show EStateM.bind x f s = _
  simp only [EStateM.bind, h]

theorem step_bind_eq_ok {x : EStateM ε σ α} {f : α → EStateM ε σ β} {b : β} :
    (x >>= f) s = .ok b s'' ↔ ∃ a s', x s = .ok a s' ∧ f a s' = .ok b s'' := by
  cases h : x s with
  | ok a s' => simp [step_bind_ok h]
  | error e s' => simp [step_bind_error h]

theorem step_bind_eq_error {x : EStateM ε σ α} {f : α → EStateM ε σ β} {e : ε} :
    (x >>= f) s = .error e s'' ↔
      x s = .error e s'' ∨ ∃ a s', x s = .ok a s' ∧ f a s' = .error e s'' := by
  cases h : x s with
  | ok a s' => simp [step_bind_ok h]
  | error e' s' => simp [step_bind_error h]

theorem step_pure_eq_ok {a b : α} : (pure a : EStateM ε σ α) s = .ok b s' ↔ a = b ∧ s = s' := by
  show EStateM.Result.ok a s = _ ↔ _
  simp

theorem step_mapM_cons_eq_ok {f : α → EStateM ε σ β} {a : α} {as : List α} {bs : List β} :
    (a :: as).mapM f s = .ok bs s' ↔
      ∃ b rest s₁, f a s = .ok b s₁ ∧ as.mapM f s₁ = .ok rest s' ∧ bs = b :: rest := by
  rw [List.mapM_cons, step_bind_eq_ok]
  constructor
  · rintro ⟨b, s₁, first, h⟩
    obtain ⟨rest, s₂, second, h⟩ := step_bind_eq_ok.1 h
    obtain ⟨rfl, rfl⟩ := step_pure_eq_ok.1 h
    exact ⟨b, rest, s₁, first, second, rfl⟩
  · rintro ⟨b, rest, s₁, first, second, rfl⟩
    exact ⟨b, s₁, first, step_bind_eq_ok.2 ⟨rest, s', second, rfl⟩⟩

theorem step_mapM_map_eq {γ : Type} {f : α → EStateM ε σ β} {g : α → γ} {g' : β → γ}
    (each : ∀ a s b s', f a s = .ok b s' → g' b = g a) {as : List α} {bs : List β}
    (h : as.mapM f s = .ok bs s') : bs.map g' = as.map g := by
  induction as generalizing s bs with
  | nil =>
    obtain ⟨rfl, rfl⟩ := step_pure_eq_ok.1 h
    rfl
  | cons a as ih =>
    obtain ⟨b, rest, s₁, first, second, rfl⟩ := step_mapM_cons_eq_ok.1 h
    rw [List.map_cons, List.map_cons, each a s b s₁ first, ih second]

/-- Each answer was made between states that related steps lead to and from. -/
theorem step_mapM_forall₂ {f : α → EStateM ε σ β} {R : σ → σ → Prop} (refl : ∀ s, R s s)
    (trans : ∀ s t u, R s t → R t u → R s u) (each : ∀ a s b s', f a s = .ok b s' → R s s')
    {as : List α} {bs : List β} (h : as.mapM f s = .ok bs s') :
    List.Forall₂ (fun a b => ∃ t t', R s t ∧ f a t = .ok b t' ∧ R t' s') as bs ∧ R s s' := by
  induction as generalizing s bs with
  | nil =>
    obtain ⟨rfl, rfl⟩ := step_pure_eq_ok.1 h
    exact ⟨.nil, refl s⟩
  | cons a as ih =>
    obtain ⟨b, rest, s₁, first, second, rfl⟩ := step_mapM_cons_eq_ok.1 h
    obtain ⟨others, later⟩ := ih second
    have start := each a s b s₁ first
    refine ⟨.cons ⟨s, s₁, refl s, first, later⟩ (others.imp fun a b => ?_), trans _ _ _ start later⟩
    rintro ⟨t, t', before, made, after⟩
    exact ⟨t, t', trans _ _ _ start before, made, after⟩

theorem step_get_bind {f : σ → EStateM ε σ β} : (get >>= f) s = f s s := rfl

theorem step_modify_bind {g : σ → σ} {f : PUnit → EStateM ε σ β} :
    (modify g >>= f) s = f ⟨⟩ (g s) := rfl

theorem state_bind {x : StateM σ α} {f : α → StateM σ β} {a : α} (h : x s = (a, s')) :
    (x >>= f) s = f a s' := by
  show (f (x s).1 (x s).2) = _
  rw [h]

theorem edit_lift_eq_ok {x : Except Error α} {a : α} :
    (liftM x : Edit σ α) s = .ok a s' ↔ x = .ok a ∧ s = s' := by
  cases x with
  | error e =>
    show EStateM.Result.error e s = _ ↔ _
    simp
  | ok b =>
    show EStateM.Result.ok b s = _ ↔ _
    simp

theorem edit_lift_eq_error {x : Except Error α} {e : Error} :
    (liftM x : Edit σ α) s = .error e s' ↔ x = .error e ∧ s = s' := by
  cases x with
  | error e' =>
    show EStateM.Result.error e' s = _ ↔ _
    simp
  | ok a =>
    show EStateM.Result.ok a s = _ ↔ _
    simp

theorem edit_change_eq_ok {x : StateM σ α} {a : α} :
    (liftM x : Edit σ α) s = .ok a s' ↔ x s = (a, s') := by
  show EStateM.Result.ok (x s).1 (x s).2 = _ ↔ _
  rw [Prod.ext_iff]
  simp

theorem edit_run_eq_ok {x : Edit σ α} {a : α} : x.run s = .ok (a, s') ↔ x s = .ok a s' := by
  unfold Edit.run
  cases x s with
  | ok b t => simp
  | error e t => simp

theorem edit_zoom_eq_ok {τ : Type} {get : σ → τ} {set : τ → σ → σ} {x : Edit τ α} {a : α} :
    x.zoom get set s = .ok a s' ↔ ∃ t, x (get s) = .ok a t ∧ s' = set t s := by
  unfold Edit.zoom
  cases x (get s) with
  | ok b t => simp [eq_comm]
  | error e t => simp

end Edits

end Weft
