import Weft.Proofs.Invariants

/-!
# Steps by their answers

An attempt of a step tells its answer, which may be an error, and the state that it leaves in either
case. Under an invariant a step may answer alike wherever it is taken. Two steps agree if they answer
alike and leave states that look alike.
-/

namespace Weft

variable {σ τ α β : Type} {s t : σ}

/-! ## Attempts -/

namespace Edit

theorem attempt_of_ok {x : Edit σ α} {a : α} (h : x s = .ok a t) : x.attempt s = (.ok a, t) := by
  rw [attempt, h]

theorem attempt_of_error {x : Edit σ α} {e : Error} (h : x s = .error e t) :
    x.attempt s = (.error e, t) := by
  rw [attempt, h]

theorem attempt_bind (x : Edit σ α) (f : α → Edit σ β) (s : σ) : (x >>= f : Edit σ β).attempt s =
    match x.attempt s with
    | (.ok a, t) => (f a).attempt t
    | (.error e, t) => (.error e, t) := by
  cases h : x s with
  | ok a t =>
    rw [attempt_of_ok h, attempt, step_bind_ok h]
    rfl
  | error e t => rw [attempt_of_error h, attempt_of_error (step_bind_error h)]

theorem attempt_lift (x : Except Error α) (s : σ) : (liftM x : Edit σ α).attempt s = (x, s) := by
  cases x <;> rfl

theorem attempt_zoom {get : σ → τ} {set : τ → σ → σ} (x : Edit τ α) (s : σ) :
    (x.zoom get set).attempt s = ((x.attempt (get s)).1, set (x.attempt (get s)).2 s) := by
  unfold zoom attempt
  dsimp only
  cases x (get s) <;> rfl

end Edit

/-- A step keeps its invariant whether it succeeds or not. -/
theorem Maintains.attempt {I : σ → Prop} {P : α → Prop} {x : Edit σ α} (h : Maintains I x P) (s : σ)
    (before : I s) : I (x.attempt s).2 := by
  cases done : x s with
  | ok a s' =>
    rw [Edit.attempt_of_ok done]
    exact (h.ok s a s' before done).1
  | error e s' =>
    rw [Edit.attempt_of_error done]
    exact h.error s e s' before done

/-! ## Answers under an invariant -/

/-- Wherever the invariant holds, the step answers so, and leaves the invariant. -/
def Gives (I : σ → Prop) (x : Edit σ α) (r : Except Error α) : Prop :=
  ∀ s, I s → (x.attempt s).1 = r ∧ I (x.attempt s).2

namespace Gives

variable {I : σ → Prop} {x : Edit σ α} {r : Except Error α}

theorem pure (a : α) : Gives I (Pure.pure a) (.ok a) := fun _ before => ⟨rfl, before⟩

theorem bind {f : α → Edit σ β} {g : α → Except Error β} (h : Gives I x r)
    (h' : ∀ a, r = .ok a → Gives I (f a) (g a)) : Gives I (x >>= f) (r >>= g) := by
  intro s before
  obtain ⟨answer, between⟩ := h s before
  rw [Edit.attempt_bind]
  generalize x.attempt s = left at answer between
  obtain ⟨r', t⟩ := left
  obtain rfl : r' = r := answer
  cases r' with
  | ok a => exact h' a rfl t between
  | error e => exact ⟨rfl, between⟩

/-- A step behind one whose answer is known. -/
theorem andThen {a : α} {f : α → Edit σ β} {r : Except Error β} (h : Gives I x (.ok a))
    (h' : Gives I (f a) r) : Gives I (x >>= f) r :=
  h.bind (g := fun _ => r) fun a' same => by
    cases same
    exact h'

theorem ite {c : Prop} [Decidable c] {y : Edit σ α} {r' : Except Error α} (hx : c → Gives I x r)
    (hy : ¬ c → Gives I y r') : Gives I (if c then x else y) (if c then r else r') := by
  split
  · exact hx ‹c›
  · exact hy ‹¬ c›

theorem mapM {f : α → Edit σ β} {g : α → Except Error β} {as : List α}
    (each : ∀ a ∈ as, Gives I (f a) (g a)) : Gives I (as.mapM f) (as.mapM g) := by
  induction as with
  | nil => exact pure []
  | cons a as ih =>
    rw [List.mapM_cons, List.mapM_cons]
    refine (each a List.mem_cons_self).bind fun b _ => ?_
    exact (ih fun a' mem => each a' (List.mem_cons_of_mem a mem)).bind fun bs _ => pure (b :: bs)

theorem maintains (h : Gives I x r) : Maintains I x fun _ => True where
  ok s a s' before done := ⟨by simpa [Edit.attempt_of_ok done] using (h s before).2, trivial⟩
  error s e s' before done := by simpa [Edit.attempt_of_error done] using (h s before).2

end Gives

/-! ## Steps that agree -/

/-- The steps answer alike, and leave states that look alike. -/
def Agree (view : σ → τ) (x y : Edit σ α) (s t : σ) : Prop :=
  Prod.map id view (x.attempt s) = Prod.map id view (y.attempt t)

namespace Agree

variable {view : σ → τ} {x y : Edit σ α}

theorem eq (h : Agree view x y s t) : (x.attempt s).1 = (y.attempt t).1 ∧
    view (x.attempt s).2 = view (y.attempt t).2 := Prod.ext_iff.1 h

theorem pure (a : α) (same : view s = view t) : Agree view (Pure.pure a) (Pure.pure a) s t :=
  congrArg (Prod.mk _) same

theorem lift (r : Except Error α) (same : view s = view t) :
    Agree view (liftM r) (liftM r) s t := by
  rw [Agree, Edit.attempt_lift, Edit.attempt_lift]
  exact congrArg (Prod.mk _) same

/-- Steps that look at the states they start from. -/
theorem get {f g : σ → Edit σ α} (h : Agree view (f s) (g t) s t) :
    Agree view (MonadState.get >>= f) (MonadState.get >>= g) s t := h

theorem bind {f g : α → Edit σ β} (h : Agree view x y s t)
    (h' : ∀ a s' t', x s = .ok a s' → y t = .ok a t' → view s' = view t' →
      Agree view (f a) (g a) s' t') : Agree view (x >>= f) (y >>= g) s t := by
  unfold Agree at h ⊢
  rw [Edit.attempt_bind, Edit.attempt_bind]
  cases first : x s with
  | error e s' =>
    cases second : y t with
    | error e' t' =>
      rw [Edit.attempt_of_error first, Edit.attempt_of_error second] at h ⊢
      obtain ⟨rfl, same⟩ : e = e' ∧ view s' = view t' := by simpa using h
      exact congrArg (Prod.mk _) same
    | ok b t' =>
      rw [Edit.attempt_of_error first, Edit.attempt_of_ok second] at h
      cases congrArg Prod.fst h
  | ok a s' =>
    cases second : y t with
    | error e' t' =>
      rw [Edit.attempt_of_ok first, Edit.attempt_of_error second] at h
      cases congrArg Prod.fst h
    | ok b t' =>
      rw [Edit.attempt_of_ok first, Edit.attempt_of_ok second] at h ⊢
      obtain ⟨rfl, same⟩ : a = b ∧ view s' = view t' := by simpa using h
      exact h' a s' t' first second same

end Agree

end Weft
