import Weft.Call.Value

/-!
# Actions

Callbacks and the code that they stand in for act on a world: they change it and return a value or
raise an exception. What was changed before an exception stays changed.
-/

namespace Weft

/-- Code that changes the world and may raise. -/
abbrev Action (σ α : Type) := EStateM Thrown σ α

/-- Code that a callback can run on a receiver and arguments. -/
abbrev Invoker (σ : Type) := Value → List Value → Action σ Value

/-- Code that returns a value whatever it runs on. -/
def Invoker.always {σ : Type} (v : Value) : Invoker σ := fun _ _ => pure v

namespace Action

instance {σ : Type} : MonadLift (StateM σ) (Action σ) where
  monadLift change s :=
    let (a, s) := change s
    .ok a s

/-- Runs code to its outcome. -/
def outcome {σ : Type} (a : Action σ Value) : StateM σ Outcome := fun s =>
  match a s with
  | .ok v s => (.returned v, s)
  | .error t s => (.raised t, s)

/-- Runs code on a part of the world. -/
def within {σ τ α : Type} (get : σ → τ) (set : τ → σ → σ) (a : Action τ α) : Action σ α := fun s =>
  match a (get s) with
  | .ok v t => .ok v (set t s)
  | .error e t => .error e (set t s)

end Action

end Weft
