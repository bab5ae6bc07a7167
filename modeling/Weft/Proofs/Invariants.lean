import Weft.Proofs.Steps

/-!
# Steps that keep an invariant

A step maintains an invariant of its state if the invariant holds behind the step whenever it holds
before, where the step fails as where it succeeds. Steps made of such steps are such steps.
-/

namespace Weft

variable {ε σ α β : Type} {I : σ → Prop} {P : α → Prop} {Q : β → Prop}

/-- The step keeps the invariant, and what it answers has the property. -/
structure Maintains (I : σ → Prop) (x : EStateM ε σ α) (P : α → Prop) : Prop where
  ok : ∀ s a s', I s → x s = .ok a s' → I s' ∧ P a
  error : ∀ s e s', I s → x s = .error e s' → I s'

namespace Maintains

theorem weaken {x : EStateM ε σ α} {P' : α → Prop} (h : Maintains I x P) (le : ∀ a, P a → P' a) :
    Maintains I x P' where
  ok s a s' before done := (h.ok s a s' before done).imp_right (le a)
  error := h.error

theorem pure {a : α} (h : P a) : Maintains I (Pure.pure a : EStateM ε σ α) P where
  ok s b s' before done := by
    obtain ⟨rfl, rfl⟩ := step_pure_eq_ok.1 done
    exact ⟨before, h⟩
  error s e s' before done := by cases done

theorem throw (e : ε) : Maintains I (MonadExcept.throw e : EStateM ε σ α) P where
  ok s a s' before done := by cases done
  error s e s' before done := by
    cases done
    exact before

theorem get : Maintains I (MonadState.get : EStateM ε σ σ) I where
  ok s a s' before done := by
    cases done
    exact ⟨before, before⟩
  error s e s' before done := by cases done

theorem modify {f : σ → σ} (h : ∀ s, I s → I (f s)) :
    Maintains I (modify f : EStateM ε σ PUnit) fun _ => True where
  ok s a s' before done := by
    cases done
    exact ⟨h s before, trivial⟩
  error s e s' before done := by cases done

theorem modifyGet {f : σ → α × σ} (h : ∀ s, I s → I (f s).2 ∧ P (f s).1) :
    Maintains I (MonadStateOf.modifyGet f : EStateM ε σ α) P where
  ok s a s' before done := by
    cases done
    exact h s before
  error s e s' before done := by cases done

/-- A check that changes nothing. -/
theorem check {x : Except Error α} (h : ∀ a, x = .ok a → P a) :
    Maintains I (liftM x : Edit σ α) P where
  ok s a s' before done := by
    obtain ⟨answered, rfl⟩ := edit_lift_eq_ok.1 done
    exact ⟨before, h a answered⟩
  error s e s' before done := by
    cases x with
    | ok a => cases done
    | error e =>
      cases done
      exact before

theorem bind {x : EStateM ε σ α} {f : α → EStateM ε σ β} (h : Maintains I x P)
    (h' : ∀ a, P a → Maintains I (f a) Q) : Maintains I (x >>= f) Q where
  ok s b s'' before done := by
    obtain ⟨a, s', first, second⟩ := step_bind_eq_ok.1 done
    obtain ⟨between, answer⟩ := h.ok s a s' before first
    exact (h' a answer).ok s' b s'' between second
  error s e s'' before done := by
    cases first : x s with
    | ok a s' =>
      obtain ⟨between, answer⟩ := h.ok s a s' before first
      rw [step_bind_ok first] at done
      exact (h' a answer).error s' e s'' between done
    | error e' s' =>
      rw [step_bind_error first] at done
      cases done
      exact h.error s e s'' before first

/-- A step on a part of the state keeps what it keeps of the part. -/
theorem zoom {τ : Type} {J : τ → Prop} {get : σ → τ} {set : τ → σ → σ} {x : Edit τ α}
    (h : Maintains J x P) (part : ∀ s, I s → J (get s)) (whole : ∀ s t, I s → J t → I (set t s)) :
    Maintains I (x.zoom get set) P where
  ok s a s' before done := by
    obtain ⟨t, inner, rfl⟩ := edit_zoom_eq_ok.1 done
    obtain ⟨after, answer⟩ := h.ok _ a t (part s before) inner
    exact ⟨whole s t before after, answer⟩
  error s e s' before done := by
    unfold Edit.zoom at done
    cases inner : x (get s) with
    | ok a t =>
      rw [inner] at done
      cases done
    | error e' t =>
      rw [inner] at done
      cases done
      exact whole s t before (h.error _ e t (part s before) inner)

theorem ite {c : Prop} [Decidable c] {x y : EStateM ε σ α} (hx : c → Maintains I x P)
    (hy : ¬ c → Maintains I y P) : Maintains I (if c then x else y) P := by
  split
  · exact hx ‹c›
  · exact hy ‹¬ c›

theorem mapM {f : α → EStateM ε σ β} {as : List α} (each : ∀ a ∈ as, Maintains I (f a) Q) :
    Maintains I (as.mapM f) fun bs => ∀ b ∈ bs, Q b := by
  induction as with
  | nil => exact pure fun b mem => nomatch mem
  | cons a as ih =>
    rw [List.mapM_cons]
    refine (each a List.mem_cons_self).bind fun b first => ?_
    refine (ih fun a' mem => each a' (List.mem_cons_of_mem a mem)).bind fun bs rest => pure ?_
    intro b' mem
    rcases List.mem_cons.1 mem with rfl | mem
    · exact first
    · exact rest b' mem

theorem forM {f : α → EStateM ε σ PUnit} {as : List α}
    (each : ∀ a ∈ as, Maintains I (f a) fun _ => True) :
    Maintains I (as.forM f) fun _ => True := by
  induction as with
  | nil => exact pure trivial
  | cons a as ih =>
    exact (each a List.mem_cons_self).bind fun _ _ =>
      ih fun a' mem => each a' (List.mem_cons_of_mem a mem)

end Maintains

end Weft
