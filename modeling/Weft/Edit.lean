import Weft.Error

/-!
# Edits

An edit changes a state and may fail; what it changed before it failed stays changed. Changes that
cannot fail, and checks that change nothing, are edits too.
-/

namespace Weft

/-- A change of a state that may fail. -/
abbrev Edit (σ : Type) := EStateM Error σ

namespace Edit

instance {σ : Type} : MonadLift (StateM σ) (Edit σ) where
  monadLift change s :=
    let (a, s) := change s
    .ok a s

instance {σ : Type} : MonadLift (Except Error) (Edit σ) where
  monadLift
    | .ok a => pure a
    | .error e => throw e

/-- The answer of an edit and the state behind it, or its error. -/
def run {σ α : Type} (edit : Edit σ α) (s : σ) : Except Error (α × σ) :=
  match edit s with
  | .ok a s => .ok (a, s)
  | .error e _ => .error e

/-- What an edit answers, and the state that it leaves even if it fails. -/
def attempt {σ α : Type} (edit : Edit σ α) (s : σ) : Except Error α × σ :=
  match edit s with
  | .ok a s => (.ok a, s)
  | .error e s => (.error e, s)

/-- An edit of a part of a state. -/
def zoom {σ τ α : Type} (get : σ → τ) (set : τ → σ → σ) (edit : Edit τ α) : Edit σ α := fun s =>
  match edit (get s) with
  | .ok a t => .ok a (set t s)
  | .error e t => .error e (set t s)

end Edit

end Weft
