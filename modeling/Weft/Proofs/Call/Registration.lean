import Mathlib.Data.List.Nodup
import Mathlib.Logic.Relation
import Std.Data.String.ToNat
import Weft.Call.Registry

/-!
# Tokens stand for one callback

Registries are numbered in the order in which they are made and number their tokens in the order in
which they give them out. So no token is ever given out twice, by whichever registries and in
whichever order callbacks are registered; a token resolves to the callback that it was given for
from then on, and in no other registry.
-/

namespace Weft

variable {σ : Type}

namespace Registry

variable {r r' r'' : Registry σ} {given given' : List (String × Callback σ)} {text : String}
  {c : Callback σ}

/-! ## Tokens -/

theorem colon_not_mem_repr (n : Nat) : ':' ∉ n.repr.toList := by
  intro mem
  have digit := Nat.isDigit_of_mem_toDigits (by decide) (by decide) (Nat.toList_repr (n := n) ▸ mem)
  revert digit
  decide

/-- The numbers of a token are read off its text, which has one colon. -/
theorem token_inj {registry running registry' running' : Nat}
    (h : token registry running = token registry' running') :
    registry = registry' ∧ running = running' := by
  have same : registry.repr.toList ++ ':' :: running.repr.toList =
      registry'.repr.toList ++ ':' :: running'.repr.toList := by
    simpa [token] using congrArg String.toList h
  obtain ⟨left, -, right⟩ := (List.append_cons_inj_of_notMem (colon_not_mem_repr _)
    (colon_not_mem_repr _)).1 same
  exact ⟨Nat.repr_inj.1 (String.toList_inj.1 left), Nat.repr_inj.1 (String.toList_inj.1 right)⟩

/-- The registry has given out the token. -/
def Gave (r : Registry σ) (text : String) : Prop := ∃ n < r.next, text = token r.number n

/-- Callbacks are held under tokens that were given out. -/
def Sound (r : Registry σ) : Prop := ∀ text ∈ r.entries, r.Gave text

theorem sound_empty (number : Nat) : Sound (σ := σ) { number } :=
  fun _ mem => absurd mem Std.HashMap.not_mem_empty

theorem not_gave_next (r : Registry σ) : ¬ r.Gave (token r.number r.next) := by
  rintro ⟨n, less, same⟩
  have := (token_inj same).2
  omega

theorem mem_of_resolve (h : r.resolve text = .ok c) : text ∈ r.entries := by
  unfold resolve at h
  rw [Std.HashMap.mem_iff_isSome_getElem?]
  cases found : r.entries[text]? with
  | none =>
    rw [found] at h
    cases h
  | some c' => rfl

theorem resolve_of_not_mem (h : text ∉ r.entries) :
    r.resolve text = .error (.unresolved (.unknownToken text)) := by
  rw [resolve, Std.HashMap.getElem?_eq_none h]

/-! ## Registering -/

theorem number_register (r : Registry σ) (c : Callback σ) : (r.register c).2.number = r.number := rfl

theorem resolve_register (r : Registry σ) (c : Callback σ) (text : String) :
    (r.register c).2.resolve text =
      if (r.register c).1 = text then .ok c else r.resolve text := by
  have held : (r.register c).2.entries = r.entries.insert (r.register c).1 c := rfl
  unfold resolve
  rw [held, Std.HashMap.getElem?_insert]
  by_cases same : (r.register c).1 = text
  · rw [if_pos same, if_pos (beq_iff_eq.2 same)]
  · rw [if_neg same, if_neg (same ∘ beq_iff_eq.1)]

theorem Gave.register (h : r.Gave text) (c : Callback σ) : (r.register c).2.Gave text := by
  obtain ⟨n, less, same⟩ := h
  exact ⟨n, Nat.lt_succ_of_lt less, same⟩

theorem gave_register (r : Registry σ) (c : Callback σ) :
    (r.register c).2.Gave (r.register c).1 := ⟨r.next, Nat.lt_succ_self _, rfl⟩

theorem Sound.register (h : r.Sound) (c : Callback σ) : (r.register c).2.Sound := by
  intro text mem
  rcases Std.HashMap.mem_insert.1 mem with same | mem
  · exact beq_iff_eq.1 same ▸ gave_register r c
  · exact (h text mem).register c

/-- What is held under a token stays. -/
theorem Sound.resolve_register (h : r.Sound) (held : r.resolve text = .ok c) (c' : Callback σ) :
    (r.register c').2.resolve text = .ok c := by
  rw [Registry.resolve_register, if_neg, held]
  rintro rfl
  exact not_gave_next r (h _ (mem_of_resolve held))

/-- Callbacks are registered one behind the other, under these tokens. -/
inductive Gains : Registry σ → List (String × Callback σ) → Registry σ → Prop
  | refl (r : Registry σ) : Gains r [] r
  | cons {r after : Registry σ} {rest : List (String × Callback σ)} (c : Callback σ)
    (h : Gains (r.register c).2 rest after) : Gains r (((r.register c).1, c) :: rest) after

namespace Gains

theorem single (r : Registry σ) (c : Callback σ) :
    Gains r [((r.register c).1, c)] (r.register c).2 := .cons c (.refl _)

theorem trans (h : Gains r given r') (h' : Gains r' given' r'') :
    Gains r (given ++ given') r'' := by
  induction h with
  | refl r => exact h'
  | cons c _ ih => exact .cons c (ih h')

theorem number (h : Gains r given r') : r'.number = r.number := by
  induction h with
  | refl r => rfl
  | cons c _ ih => exact ih

/-- The tokens are those that follow. -/
theorem tokens (h : Gains r given r') :
    given.map (·.1) = (List.range' r.next given.length).map (token r.number) := by
  induction h with
  | refl r => rfl
  | cons c _ ih => exact congrArg (_ :: ·) ih

theorem nodup (h : Gains r given r') : (given.map (·.1)).Nodup := by
  rw [h.tokens]
  exact List.Nodup.map (fun _ _ same => (token_inj same).2) List.nodup_range'

/-- The tokens had not been given out. -/
theorem fresh (h : Gains r given r') : ∀ text ∈ given.map (·.1), ¬ r.Gave text := by
  rw [h.tokens]
  rintro text mem ⟨n, less, same⟩
  obtain ⟨m, listed, rfl⟩ := List.mem_map.1 mem
  have above := (List.mem_range'_1.1 listed).1
  have := (token_inj same).2
  omega

theorem sound (h : Gains r given r') (sound : r.Sound) : r'.Sound := by
  induction h with
  | refl r => exact sound
  | cons c _ ih => exact ih (sound.register c)

theorem resolve (h : Gains r given r') (sound : r.Sound) (held : r.resolve text = .ok c) :
    r'.resolve text = .ok c := by
  induction h with
  | refl r => exact held
  | cons c' _ ih => exact ih (sound.register c') (sound.resolve_register held c')

/-- Each token resolves to the callback that it was given for. -/
theorem resolves (h : Gains r given r') (sound : r.Sound) :
    ∀ g ∈ given, r'.resolve g.1 = .ok g.2 := by
  induction h with
  | refl r => exact fun g mem => nomatch mem
  | @cons r r' given c later ih =>
    intro g mem
    rcases List.mem_cons.1 mem with rfl | mem
    · refine later.resolve (sound.register c) ?_
      rw [Registry.resolve_register, if_pos rfl]
    · exact ih (sound.register c) g mem

end Gains

/-! ## Calls by token -/

/-- Calls with the token run the callback, each by the entry for callbacks of its kind. -/
def Serves (r : Registry σ) (text : String) : Callback σ → Prop
  | .interception chain => ∀ receiver args callee,
    r.intercept text receiver args callee = .ok (chain.invoke receiver args callee)
  | .addedMethod code => ∀ receiver args accessors,
    r.invokeAdded text receiver args accessors = .ok (code receiver args accessors).outcome
  | .initializer initializer => ∀ receiver,
    r.initialValue text receiver = .ok (initializer receiver).outcome

theorem serves_of_resolve (h : r.resolve text = .ok c) : r.Serves text c := by
  cases c with
  | interception chain =>
    intro receiver args callee
    rw [intercept, h]
    rfl
  | addedMethod code =>
    intro receiver args accessors
    rw [invokeAdded, h]
    rfl
  | initializer initializer =>
    intro receiver
    rw [initialValue, h]
    rfl

end Registry

/-! ## Histories -/

/-- The registries that were made, in their order, and the tokens that were given out. -/
structure Registries (σ : Type) where
  all : List (Registry σ) := []
  issued : List String := []

namespace Registries

variable {s s' : Registries σ} {k : Nat} {r r' : Registry σ} {text : String} {c : Callback σ}
  {given : List (String × Callback σ)}

/-- What happens to registries: one is made, or a callback is registered with one of them. -/
inductive Step : Registries σ → Registries σ → Prop
  | made (s : Registries σ) : Step s { s with all := s.all ++ [{ number := s.all.length + 1 }] }
  | registered (s : Registries σ) {k : Nat} {r : Registry σ} (c : Callback σ)
    (found : s.all[k]? = some r) :
    Step s ⟨s.all.set k (r.register c).2, s.issued ++ [(r.register c).1]⟩

/-- The registries come to be so, whatever happens in between. -/
abbrev Reaches : Registries σ → Registries σ → Prop := Relation.ReflTransGen Step

/-- Registries are numbered by their places, and each token was given out by one of them. -/
structure Numbered (s : Registries σ) : Prop where
  number : ∀ {k : Nat} {r : Registry σ}, s.all[k]? = some r → r.number = k + 1
  sound : ∀ {k : Nat} {r : Registry σ}, s.all[k]? = some r → r.Sound
  issued : ∀ text ∈ s.issued, ∃ (k : Nat) (r : Registry σ), s.all[k]? = some r ∧ r.Gave text

theorem numbered_empty : Numbered ({} : Registries σ) where
  number found := by cases found
  sound found := by cases found
  issued _ mem := nomatch mem

theorem getElem?_set_of_found (found : s.all[k]? = some r) (r' : Registry σ) (j : Nat) :
    (s.all.set k r')[j]? = if k = j then some r' else s.all[j]? := by
  rw [List.getElem?_set]
  split
  · rw [if_pos (List.getElem?_eq_some_iff.1 found).1]
  · rfl

theorem Numbered.made (h : s.Numbered) :
    Numbered { s with all := s.all ++ [{ number := s.all.length + 1 }] } := by
  have place {k : Nat} {r : Registry σ}
      (found : (s.all ++ [{ number := s.all.length + 1 }])[k]? = some r) :
      s.all[k]? = some r ∨ k = s.all.length ∧ r = { number := s.all.length + 1 } := by
    rw [List.getElem?_append] at found
    split at found
    · exact .inl found
    · obtain ⟨bound, same⟩ := List.getElem?_eq_some_iff.1 found
      rw [List.length_singleton] at bound
      exact .inr ⟨by omega, same.symm.trans (List.getElem_singleton _)⟩
  constructor
  case number =>
    intro k r found
    rcases place found with found | ⟨rfl, rfl⟩
    · exact h.number found
    · rfl
  case sound =>
    intro k r found
    rcases place found with found | ⟨-, rfl⟩
    · exact h.sound found
    · exact Registry.sound_empty _
  case issued =>
    intro text mem
    obtain ⟨k, r, found, gave⟩ := h.issued text mem
    exact ⟨k, r, by rw [List.getElem?_append_left (List.getElem?_eq_some_iff.1 found).1, found],
      gave⟩

theorem Numbered.registered (h : s.Numbered) (c : Callback σ) (found : s.all[k]? = some r) :
    Numbered ⟨s.all.set k (r.register c).2, s.issued ++ [(r.register c).1]⟩ := by
  have place {j : Nat} {r' : Registry σ}
      (at_j : (s.all.set k (r.register c).2)[j]? = some r') :
      j = k ∧ r' = (r.register c).2 ∨ s.all[j]? = some r' := by
    rw [getElem?_set_of_found found] at at_j
    split at at_j
    · cases at_j
      exact .inl ⟨Eq.symm ‹_›, rfl⟩
    · exact .inr at_j
  constructor
  case number =>
    intro j r' at_j
    rcases place at_j with ⟨rfl, rfl⟩ | at_j
    · exact (r.number_register c).trans (h.number found)
    · exact h.number at_j
  case sound =>
    intro j r' at_j
    rcases place at_j with ⟨rfl, rfl⟩ | at_j
    · exact (h.sound found).register c
    · exact h.sound at_j
  case issued =>
    intro text mem
    rcases List.mem_append.1 mem with mem | mem
    · obtain ⟨j, r', at_j, gave⟩ := h.issued text mem
      by_cases same : k = j
      · subst same
        cases found.symm.trans at_j
        exact ⟨k, _, by rw [getElem?_set_of_found found, if_pos rfl], gave.register c⟩
      · exact ⟨j, r', by rw [getElem?_set_of_found found, if_neg same, at_j], gave⟩
    · rw [List.mem_singleton.1 mem]
      exact ⟨k, _, by rw [getElem?_set_of_found found, if_pos rfl], r.gave_register c⟩

theorem Step.numbered (h : Step s s') (numbered : s.Numbered) : s'.Numbered := by
  cases h with
  | made => exact numbered.made
  | registered c found => exact numbered.registered c found

theorem Reaches.numbered (h : Reaches s s') (numbered : s.Numbered) : s'.Numbered := by
  induction h with
  | refl => exact numbered
  | tail _ step ih => exact step.numbered ih

/-- The registries when one of them has given out tokens and become another. -/
def giveOut (s : Registries σ) (k : Nat) (r : Registry σ) (tokens : List String) : Registries σ :=
  ⟨s.all.set k r, s.issued ++ tokens⟩

/-- What a registry gains is a part of a history. -/
theorem reaches_of_gains (found : s.all[k]? = some r) (gains : r.Gains given r') :
    Reaches s (s.giveOut k r' (given.map (·.1))) := by
  induction gains generalizing s with
  | refl r =>
    have same : s.all.set k r = s.all := by
      obtain ⟨bound, rfl⟩ := List.getElem?_eq_some_iff.1 found
      exact List.set_getElem_self bound
    rw [giveOut, same, List.map_nil, List.append_nil]
  | @cons r r' given c _ ih =>
    refine .head (.registered s c found) ?_
    have here : (s.all.set k (r.register c).2)[k]? = some (r.register c).2 := by
      rw [getElem?_set_of_found found, if_pos rfl]
    have rest := ih (s := ⟨s.all.set k (r.register c).2, s.issued ++ [(r.register c).1]⟩) here
    rwa [giveOut, List.set_set, List.append_assoc] at rest

/-- What a registry gives out was given out by none. -/
theorem Numbered.fresh (h : s.Numbered) (found : s.all[k]? = some r) (gains : r.Gains given r') :
    ∀ text ∈ given.map (·.1), text ∉ s.issued := by
  intro text mem issued
  obtain ⟨j, r₂, at_j, n, less, rfl⟩ := h.issued text issued
  refine gains.fresh _ mem ?_
  have own : ∃ m, Registry.token r₂.number n = Registry.token r.number m := by
    rw [gains.tokens] at mem
    obtain ⟨m, -, same⟩ := List.mem_map.1 mem
    exact ⟨m, same.symm⟩
  obtain ⟨m, same⟩ := own
  have numbers := (Registry.token_inj same).1
  rw [h.number at_j, h.number found] at numbers
  obtain rfl : j = k := by omega
  cases found.symm.trans at_j
  exact ⟨n, less, rfl⟩

/-- What a token resolves to once it resolves to from then on. -/
theorem Reaches.resolve (h : Reaches s s') (numbered : s.Numbered) (found : s.all[k]? = some r) :
    ∃ r', s'.all[k]? = some r' ∧ ∀ text c, r.resolve text = .ok c → r'.resolve text = .ok c := by
  induction h with
  | refl => exact ⟨r, found, fun _ _ held => held⟩
  | @tail s₁ s₂ before step ih =>
    obtain ⟨r₁, found₁, held₁⟩ := ih
    cases step with
    | made =>
      exact ⟨r₁, by rw [List.getElem?_append_left (List.getElem?_eq_some_iff.1 found₁).1, found₁],
        held₁⟩
    | @registered j r₂ c' at_j =>
      by_cases same : j = k
      · subst same
        cases found₁.symm.trans at_j
        have sound := (Reaches.numbered before numbered).sound found₁
        exact ⟨_, by rw [getElem?_set_of_found at_j, if_pos rfl],
          fun text c held => sound.resolve_register (held₁ text c held) c'⟩
      · exact ⟨r₁, by rw [getElem?_set_of_found at_j, if_neg same, found₁], held₁⟩

/-- A token resolves in one registry only. -/
theorem Numbered.unresolved (h : s.Numbered) (found : s.all[k]? = some r)
    (held : r.resolve text = .ok c) {j : Nat} {r' : Registry σ} (other : s.all[j]? = some r')
    (apart : j ≠ k) : r'.resolve text = .error (.unresolved (.unknownToken text)) := by
  refine Registry.resolve_of_not_mem fun mem => apart ?_
  obtain ⟨n, -, same⟩ := h.sound found text (Registry.mem_of_resolve held)
  obtain ⟨n', -, same'⟩ := h.sound other text mem
  have numbers := (Registry.token_inj (same.symm.trans same')).1
  rw [h.number found, h.number other] at numbers
  omega

end Registries

end Weft
