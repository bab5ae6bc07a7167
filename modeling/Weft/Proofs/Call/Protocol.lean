import Weft.Call.Chain
import Weft.Proofs.Steps

/-!
# The protocol of an intercepted call

`Protocol.Step` is what a chain may do next at each stage of a call, one callback at a time, and
`Execution` a sequence of such steps. A chain that notes every callback before running it follows
the protocol: up to the first exception, what it notes, the states it enters and its value are those
of an execution.
-/

namespace Weft

/-! ## The protocol -/

/-- What a chain runs: the callback of a kind at a position, or the callee, with what it is given. -/
inductive ChainCall (σ : Type) where
  | ignore (position : Nat) (receiver : Value) (args : List Value) (site : MethodSite)
  | preHook (position : Nat) (receiver : Value) (args : List Value) (site : MethodSite)
  | replacement (position : Nat) (receiver : Value) (args : List Value) (invoker : Invoker σ)
    (site : MethodSite)
  | callee (receiver : Value) (args : List Value)
  | postHook (position : Nat) (receiver : Value) (args : List Value) (value : Value)
    (site : MethodSite)
  | recovery (position : Nat) (receiver : Value) (args : List Value) (thrown : Thrown)
    (invoker : Invoker σ) (site : MethodSite)

namespace ChainCall

variable {σ : Type}

/-- The place of a callback in the order of a call: its kind, and its position among those. -/
def place : ChainCall σ → Nat × Nat
  | ignore k .. => (0, k)
  | preHook k .. => (1, k)
  | replacement k .. => (2, k)
  | callee .. => (3, 0)
  | postHook k .. => (4, k)
  | recovery k .. => (5, k)

/-- The callback is a recovery. -/
def isRecovery : ChainCall σ → Bool
  | recovery .. => true
  | _ => false

/-- The first callback stands before the second in the order of a call. -/
def IsBefore (a b : ChainCall σ) : Prop := Prod.Lex (· < ·) (· < ·) a.place b.place

end ChainCall

namespace Protocol

/-- Where a call stands: how many callbacks of a kind have returned, with the arguments and the
value so far. -/
inductive Stage where
  | ignoring (asked : Nat)
  | ignored
  | preparing (hooked : Nat) (args : List Value)
  | making (replaced : Nat) (args : List Value) (value? : Option Value)
  | finishing (hooked : Nat) (args : List Value) (value : Value)
  | returned (value : Value)
  | raised (thrown : Thrown) (args : List Value) (value? : Option Value)

/-- The place at which the next callback stands at the earliest. -/
def Stage.place : Stage → Nat × Nat
  | ignoring k => (0, k)
  | preparing k _ => (1, k)
  | making k .. => (2, k)
  | finishing k .. => (4, k)
  | ignored | returned _ | raised .. => (5, 0)

variable {σ : Type}

/-- What a replacement can call: the callee, or once there is a value, code that returns it. -/
def capability (callee : Invoker σ) : Option Value → Invoker σ
  | none => callee
  | some v => .always v

/-- One step of a call in a world: what it runs, and the states that it enters. -/
inductive Step (c : Chain σ) (receiver : Value) (args : List Value) (callee : Invoker σ) :
    Stage → σ → List (ChainCall σ) → List CallState → Stage → σ → Prop
  | refuse {k ignore w w'} : c.ignores[k]? = some ignore →
      ignore receiver args c.site w = .ok false w' →
      Step c receiver args callee (.ignoring k) w [.ignore k receiver args c.site] []
        (.ignoring (k + 1)) w'
  | accept {k ignore w w'} : c.ignores[k]? = some ignore →
      ignore receiver args c.site w = .ok true w' →
      Step c receiver args callee (.ignoring k) w [.ignore k receiver args c.site] [] .ignored w'
  | leave {w} :
      Step c receiver args callee .ignored w [] [.ignored]
        (.returned (.ofType c.site.descriptor.ret)) w
  | ignoreRaises {k ignore t w w'} : c.ignores[k]? = some ignore →
      ignore receiver args c.site w = .error t w' →
      Step c receiver args callee (.ignoring k) w [.ignore k receiver args c.site] []
        (.raised t args none) w'
  | pass {k w} : k = c.ignores.length →
      Step c receiver args callee (.ignoring k) w [] [] (.preparing 0 args) w
  | prepare {k hook as as' w w'} : c.preHooks[k]? = some hook →
      hook receiver as c.site w = .ok as' w' →
      Step c receiver args callee (.preparing k as) w [.preHook k receiver as c.site] []
        (.preparing (k + 1) as') w'
  | prepareRaises {k hook as t w w'} : c.preHooks[k]? = some hook →
      hook receiver as c.site w = .error t w' →
      Step c receiver args callee (.preparing k as) w [.preHook k receiver as c.site] []
        (.raised t as none) w'
  | prepared {k as w} : k = c.preHooks.length →
      Step c receiver args callee (.preparing k as) w [] [.preHooksApplied] (.making 0 as none) w
  | invoke {as v w w'} : c.replacements = [] → callee receiver as w = .ok v w' →
      Step c receiver args callee (.making 0 as none) w [.callee receiver as] [.invoked]
        (.finishing 0 as v) w'
  | invokeRaises {as t w w'} : c.replacements = [] → callee receiver as w = .error t w' →
      Step c receiver args callee (.making 0 as none) w [.callee receiver as] []
        (.raised t as none) w'
  | replace {k replace as value? v w w'} : c.replacements[k]? = some replace →
      replace receiver as (capability callee value?) c.site w = .ok v w' →
      Step c receiver args callee (.making k as value?) w
        [.replacement k receiver as (capability callee value?) c.site] []
        (.making (k + 1) as (some v)) w'
  | replaceRaises {k replace as value? t w w'} : c.replacements[k]? = some replace →
      replace receiver as (capability callee value?) c.site w = .error t w' →
      Step c receiver args callee (.making k as value?) w
        [.replacement k receiver as (capability callee value?) c.site] [] (.raised t as value?) w'
  | replaced {k as v w} : k = c.replacements.length →
      Step c receiver args callee (.making k as (some v)) w [] [.replaced] (.finishing 0 as v) w
  | finish {k hook as v v' w w'} : c.postHooks[k]? = some hook →
      hook receiver as v c.site w = .ok v' w' →
      Step c receiver args callee (.finishing k as v) w [.postHook k receiver as v c.site] []
        (.finishing (k + 1) as v') w'
  | finishRaises {k hook as v t w w'} : c.postHooks[k]? = some hook →
      hook receiver as v c.site w = .error t w' →
      Step c receiver args callee (.finishing k as v) w [.postHook k receiver as v c.site] []
        (.raised t as (some v)) w'
  | finished {k as v w} : k = c.postHooks.length →
      Step c receiver args callee (.finishing k as v) w [] [.postHooksApplied] (.returned v) w

/-- Steps of a call one after the other. -/
inductive Execution (c : Chain σ) (receiver : Value) (args : List Value) (callee : Invoker σ) :
    Stage → σ → List (ChainCall σ) → List CallState → Stage → σ → Prop
  | done {s w} : Execution c receiver args callee s w [] [] s w
  | step {s s' s'' w w' w'' calls calls' states states'} :
      Step c receiver args callee s w calls states s' w' →
      Execution c receiver args callee s' w' calls' states' s'' w'' →
      Execution c receiver args callee s w (calls ++ calls') (states ++ states') s'' w''

namespace Execution

variable {c : Chain σ} {receiver : Value} {args : List Value} {callee : Invoker σ}
  {s s' s'' : Stage} {w w' w'' : σ} {calls calls' : List (ChainCall σ)}
  {states states' : List CallState}

theorem single (h : Step c receiver args callee s w calls states s' w') :
    Execution c receiver args callee s w calls states s' w' := by
  have whole := Execution.step h .done
  rwa [List.append_nil, List.append_nil] at whole

theorem append (first : Execution c receiver args callee s w calls states s' w')
    (rest : Execution c receiver args callee s' w' calls' states' s'' w'') :
    Execution c receiver args callee s w (calls ++ calls') (states ++ states') s'' w'' := by
  induction first with
  | done => exact rest
  | step head _ ih =>
    rw [List.append_assoc, List.append_assoc]
    exact .step head (ih rest)

end Execution

/-! ## Runs to the end -/

section Final

variable {c : Chain σ} {receiver : Value} {args : List Value} {callee : Invoker σ}
  {s s' s'' : Stage} {w w' w'' : σ} {calls calls' : List (ChainCall σ)}
  {states states' : List CallState}

/-- The call has returned or raised. -/
def Stage.isFinal : Stage → Bool
  | returned _ | raised .. => true
  | _ => false

theorem Step.not_final (h : Step c receiver args callee s w calls states s' w') :
    s.isFinal = false := by
  cases h <;> rfl

/-- What comes next is determined by the stage and the world. -/
theorem Step.unique (h : Step c receiver args callee s w calls states s' w')
    (h' : Step c receiver args callee s w calls' states' s'' w'') :
    calls = calls' ∧ states = states' ∧ s' = s'' ∧ w' = w'' := by
  cases h <;> cases h' <;> simp_all

/-- A call has one execution to its end. -/
theorem Execution.unique (h : Execution c receiver args callee s w calls states s' w')
    (h' : Execution c receiver args callee s w calls' states' s'' w'')
    (final : s'.isFinal = true) (final' : s''.isFinal = true) :
    calls = calls' ∧ states = states' ∧ s' = s'' ∧ w' = w'' := by
  induction h generalizing calls' states' with
  | done =>
    cases h' with
    | done => exact ⟨rfl, rfl, rfl, rfl⟩
    | step head _ => simp [head.not_final] at final
  | step head _ ih =>
    cases h' with
    | done => simp [head.not_final] at final'
    | step head' rest' =>
      obtain ⟨rfl, rfl, rfl, rfl⟩ := head.unique head'
      obtain ⟨rfl, rfl, rfl, rfl⟩ := ih rest' final
      exact ⟨rfl, rfl, rfl, rfl⟩

end Final

/-! ## The order of callbacks -/

section Order

variable {c : Chain σ} {receiver : Value} {args : List Value} {callee : Invoker σ}
  {s s' : Stage} {w w' : σ} {calls : List (ChainCall σ)} {states : List CallState}

/-- The first place is before the second or the same. -/
def upTo (a b : Nat × Nat) : Prop := a.1 < b.1 ∨ a.1 = b.1 ∧ a.2 ≤ b.2

theorem upTo_trans {a b d : Nat × Nat} (h : upTo a b) (h' : upTo b d) : upTo a d := by
  unfold upTo at *
  omega

/-- A step runs at most one callback, which stands between the places of the two stages. -/
theorem Step.place (h : Step c receiver args callee s w calls states s' w') :
    upTo s.place s'.place ∧ (calls = [] ∨ ∃ call, calls = [call] ∧ upTo s.place call.place ∧
      Prod.Lex (· < ·) (· < ·) call.place s'.place) := by
  cases h <;>
    simp [Stage.place, ChainCall.place, upTo, Prod.lex_def]

/-- Callbacks run in the order of their places, between those of the two stages. -/
theorem Execution.place (h : Execution c receiver args callee s w calls states s' w') :
    upTo s.place s'.place ∧ calls.Pairwise ChainCall.IsBefore ∧
      ∀ call ∈ calls, upTo s.place call.place ∧ Prod.Lex (· < ·) (· < ·) call.place s'.place := by
  induction h with
  | done => exact ⟨.inr ⟨rfl, Nat.le_refl _⟩, .nil, by simp⟩
  | step head _ ih =>
    obtain ⟨beyond, sorted, later⟩ := ih
    obtain ⟨onward, rfl | ⟨call, rfl, from_here, before⟩⟩ := head.place
    · exact ⟨upTo_trans onward beyond, sorted, fun call mem =>
        ⟨upTo_trans onward (later call mem).1, (later call mem).2⟩⟩
    · refine ⟨upTo_trans onward beyond, ?_, ?_⟩
      · refine List.pairwise_cons.2 ⟨fun call' mem => ?_, sorted⟩
        have after := (later call' mem).1
        simp only [ChainCall.IsBefore, Prod.lex_def] at before ⊢
        unfold upTo at after
        omega
      · intro call' mem
        rcases List.mem_cons.1 mem with rfl | mem
        · refine ⟨from_here, ?_⟩
          simp only [Prod.lex_def] at before ⊢
          unfold upTo at beyond
          omega
        · exact ⟨upTo_trans onward (later call' mem).1, (later call' mem).2⟩

end Order

end Protocol

end Weft
