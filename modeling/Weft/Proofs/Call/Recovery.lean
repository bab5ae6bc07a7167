import Weft.Proofs.Call.Refinement

/-!
# Recoveries

A transcript lists what a chain ran together with what each callback answered, so that the first
exception, the arguments that the last pre-hook returned and the last value that was made can be read
off it. The transcript of a call is one of an attempt without recoveries; only if its last callback
raised do recoveries follow, each with what can be read off the attempt.
-/

namespace Weft

variable {σ : Type}

namespace Protocol

/-! ## Transcripts -/

/-- What a callback answers. -/
inductive Answer where
  | verdict (ignored : Bool)
  | arguments (args : List Value)
  | value (v : Value)
  | raised (t : Thrown)

namespace Answer

/-- The arguments that a pre-hook returned. -/
def arguments? : Answer → Option (List Value)
  | arguments args => some args
  | _ => none

/-- The value that a replacement, the callee or a hook returned. -/
def value? : Answer → Option Value
  | value v => some v
  | _ => none

/-- What was raised. -/
def thrown? : Answer → Option Thrown
  | raised t => some t
  | _ => none

/-- The answer in a result, and the world behind it. -/
def ofResult {α : Type} (answer : α → Answer) : EStateM.Result Thrown σ α → Answer × σ
  | .ok a w => (answer a, w)
  | .error t w => (.raised t, w)

end Answer

end Protocol

/-- What a chain's callback answers in a world, and the world behind it. -/
def ChainCall.answer? (c : Chain σ) (callee : Invoker σ) (w : σ) :
    ChainCall σ → Option (Protocol.Answer × σ)
  | .ignore k receiver args site =>
    c.ignores[k]?.map fun f => Protocol.Answer.ofResult .verdict (f receiver args site w)
  | .preHook k receiver args site =>
    c.preHooks[k]?.map fun f => Protocol.Answer.ofResult .arguments (f receiver args site w)
  | .replacement k receiver args invoker site =>
    c.replacements[k]?.map fun f => Protocol.Answer.ofResult .value (f receiver args invoker site w)
  | .callee receiver args => some (Protocol.Answer.ofResult .value (callee receiver args w))
  | .postHook k receiver args v site =>
    c.postHooks[k]?.map fun f => Protocol.Answer.ofResult .value (f receiver args v site w)
  | .recovery k receiver args thrown invoker site =>
    c.recoveries[k]?.map fun f =>
      Protocol.Answer.ofResult .value (f receiver args thrown invoker site w)

namespace Protocol

/-- A callback that ran, and what it answered. -/
abbrev Entry (σ : Type) := ChainCall σ × Answer

/-- Callbacks that run one after the other, each in the world that the one before it left. -/
inductive Transcript (c : Chain σ) (callee : Invoker σ) : σ → List (Entry σ) → σ → Prop
  | done {w} : Transcript c callee w [] w
  | call {w w' w'' call answer rest} : call.answer? c callee w = some (answer, w') →
      Transcript c callee w' rest w'' → Transcript c callee w ((call, answer) :: rest) w''

/-- None of the callbacks raised. -/
def Quiet (entries : List (Entry σ)) : Prop := ∀ e ∈ entries, e.2.thrown? = none

/-- The arguments that the last pre-hook to return one returned, or those that were given. -/
def lastArguments (given : List Value) (entries : List (Entry σ)) : List Value :=
  (entries.filterMap (·.2.arguments?)).getLast?.getD given

/-- The value that was made last, or the one before if none was. -/
def lastValue? (before : Option Value) (entries : List (Entry σ)) : Option Value :=
  (entries.filterMap (·.2.value?)).getLast?.or before

section Transcripts

variable {c : Chain σ} {callee : Invoker σ} {w w' w'' : σ} {xs ys : List (Entry σ)}

theorem Transcript.append (first : Transcript c callee w xs w')
    (rest : Transcript c callee w' ys w'') : Transcript c callee w (xs ++ ys) w'' := by
  induction first with
  | done => exact rest
  | call answered _ ih => exact .call answered (ih rest)

theorem Transcript.single {call : ChainCall σ} {answer : Answer}
    (answered : call.answer? c callee w = some (answer, w')) :
    Transcript c callee w [(call, answer)] w' :=
  .call answered .done

theorem Quiet.append (first : Quiet xs) (rest : Quiet ys) : Quiet (xs ++ ys) := by
  intro e mem
  rcases List.mem_append.1 mem with mem | mem
  · exact first e mem
  · exact rest e mem

theorem lastArguments_append (given : List Value) (xs ys : List (Entry σ)) :
    lastArguments given (xs ++ ys) = lastArguments (lastArguments given xs) ys := by
  unfold lastArguments
  rw [List.filterMap_append, List.getLast?_append]
  cases (ys.filterMap (·.2.arguments?)).getLast? <;> rfl

theorem lastValue?_append (before : Option Value) (xs ys : List (Entry σ)) :
    lastValue? before (xs ++ ys) = lastValue? (lastValue? before xs) ys := by
  unfold lastValue?
  rw [List.filterMap_append, List.getLast?_append, Option.or_assoc]

end Transcripts

/-! ## Attempts -/

namespace Stage

/-- The arguments at a stage of a call on those that were given. -/
def args (given : List Value) : Stage → List Value
  | ignoring _ | ignored | returned _ => given
  | preparing _ args | making _ args _ | finishing _ args _ | raised _ args _ => args

/-- The value so far at a stage. -/
def value? : Stage → Option Value
  | making _ _ value? | raised _ _ value? => value?
  | finishing _ _ v => some v
  | _ => none

end Stage

/-- What callbacks that ran between two stages answered: none raised, or only the last did. -/
inductive Follows (given : List Value) (s : Stage) : List (Entry σ) → Stage → Prop
  | onward {entries s'} : s'.isFinal = false → Quiet entries →
      s'.args given = lastArguments (s.args given) entries →
      s'.value? = lastValue? s.value? entries → Follows given s entries s'
  | returned {entries v} : Quiet entries → Follows given s entries (.returned v)
  | raised {before call t} : Quiet before →
      Follows given s (before ++ [(call, .raised t)])
        (.raised t (lastArguments (s.args given) before) (lastValue? s.value? before))

section Attempts

variable {c : Chain σ} {receiver : Value} {args : List Value} {callee : Invoker σ}
  {s s' s'' : Stage} {w w' : σ} {calls : List (ChainCall σ)} {states : List CallState}

theorem Follows.refl (unended : s.isFinal = false) : Follows args s ([] : List (Entry σ)) s :=
  .onward unended (fun _ mem => nomatch mem) rfl rfl

/-- Up to a value that is returned, nothing raised. -/
theorem Follows.quiet {entries : List (Entry σ)} {v : Value}
    (follows : Follows args s entries (.returned v)) : Quiet entries := by
  generalize ended : Stage.returned v = s' at follows
  cases follows with
  | onward unended => rw [← ended] at unended; cases unended
  | returned quiet => exact quiet
  | raised => cases ended

/-- Up to an exception, nothing raised but the last callback, and the stage has what the others
answered. -/
theorem Follows.raised_last {entries : List (Entry σ)} {t : Thrown} {as : List Value}
    {v? : Option Value} (follows : Follows args s entries (.raised t as v?)) :
    ∃ before call, entries = before ++ [(call, .raised t)] ∧ Quiet before ∧
      as = lastArguments (s.args args) before ∧ v? = lastValue? s.value? before := by
  generalize ended : Stage.raised t as v? = s' at follows
  cases follows with
  | onward unended => rw [← ended] at unended; cases unended
  | returned => cases ended
  | @raised before call t' quiet =>
    cases ended
    exact ⟨before, call, rfl, quiet, rfl, rfl⟩

/-- A step has a transcript, in which no recovery runs. -/
theorem Step.transcript (h : Step c receiver args callee s w calls states s' w') :
    ∃ entries : List (Entry σ), calls = entries.map Prod.fst ∧ Transcript c callee w entries w' ∧
      (∀ e ∈ entries, e.1.isRecovery = false) ∧ Follows args s entries s' := by
  have one {call : ChainCall σ} {answer : Answer} {s' : Stage} {w' : σ}
      (answered : call.answer? c callee w = some (answer, w')) (other : call.isRecovery = false)
      (follows : Follows args s [(call, answer)] s') :
      ∃ entries : List (Entry σ), [call] = entries.map Prod.fst ∧
        Transcript c callee w entries w' ∧ (∀ e ∈ entries, e.1.isRecovery = false) ∧
          Follows args s entries s' :=
    ⟨[(call, answer)], rfl, .single answered, by simpa using other, follows⟩
  have none {s' : Stage} (follows : Follows args s ([] : List (Entry σ)) s') :
      ∃ entries : List (Entry σ), [] = entries.map Prod.fst ∧ Transcript c callee w entries w ∧
        (∀ e ∈ entries, e.1.isRecovery = false) ∧ Follows args s entries s' :=
    ⟨[], rfl, .done, by simp, follows⟩
  have quiet : Quiet ([] : List (Entry σ)) := fun _ mem => nomatch mem
  have alone {call : ChainCall σ} {answer : Answer} (calm : answer.thrown? = Option.none) :
      Quiet [(call, answer)] := by
    intro e mem
    rw [List.mem_singleton.1 mem]
    exact calm
  cases h with
  | refuse at_k ran =>
    exact @one _ (.verdict false) _ _ (by simp [ChainCall.answer?, at_k, ran, Answer.ofResult]) rfl
      (.onward rfl (alone rfl) rfl rfl)
  | accept at_k ran =>
    exact @one _ (.verdict true) _ _ (by simp [ChainCall.answer?, at_k, ran, Answer.ofResult]) rfl
      (.onward rfl (alone rfl) rfl rfl)
  | prepare at_k ran =>
    exact @one _ (.arguments _) _ _ (by simp [ChainCall.answer?, at_k, ran, Answer.ofResult]) rfl
      (.onward rfl (alone rfl) rfl rfl)
  | replace at_k ran | finish at_k ran =>
    exact @one _ (.value _) _ _ (by simp [ChainCall.answer?, at_k, ran, Answer.ofResult]) rfl
      (.onward rfl (alone rfl) rfl rfl)
  | invoke empty ran =>
    exact @one _ (.value _) _ _ (by simp [ChainCall.answer?, ran, Answer.ofResult]) rfl
      (.onward rfl (alone rfl) rfl rfl)
  | ignoreRaises at_k ran | prepareRaises at_k ran | replaceRaises at_k ran
  | finishRaises at_k ran =>
    exact one (by simp [ChainCall.answer?, at_k, ran, Answer.ofResult]) rfl (.raised quiet)
  | invokeRaises empty ran =>
    exact one (by simp [ChainCall.answer?, ran, Answer.ofResult]) rfl (.raised quiet)
  | leave | finished => exact none (.returned quiet)
  | pass | prepared | replaced => exact none (.onward rfl quiet rfl rfl)

theorem Follows.trans {xs ys : List (Entry σ)} (quiet : Quiet xs)
    (same_args : s'.args args = lastArguments (s.args args) xs)
    (same_value : s'.value? = lastValue? s.value? xs) (rest : Follows args s' ys s'') :
    Follows args s (xs ++ ys) s'' := by
  cases rest with
  | onward unended calm args_ys value_ys =>
    refine .onward unended (quiet.append calm) ?_ ?_
    · rw [args_ys, same_args, lastArguments_append]
    · rw [value_ys, same_value, lastValue?_append]
  | returned calm => exact .returned (quiet.append calm)
  | @raised before call t calm =>
    rw [same_args, same_value, ← lastArguments_append, ← lastValue?_append, ← List.append_assoc]
    exact .raised (quiet.append calm)

/-- A call that has returned or raised goes no further. -/
theorem Execution.of_final (h : Execution c receiver args callee s w calls states s' w')
    (final : s.isFinal = true) : calls = [] ∧ s' = s ∧ w' = w := by
  cases h with
  | done => exact ⟨rfl, rfl, rfl⟩
  | step head _ => simp [head.not_final] at final

/-- An execution has a transcript, in which no recovery runs. -/
theorem Execution.transcript (h : Execution c receiver args callee s w calls states s' w')
    (unended : s.isFinal = false) : ∃ entries : List (Entry σ),
      calls = entries.map Prod.fst ∧ Transcript c callee w entries w' ∧
      (∀ e ∈ entries, e.1.isRecovery = false) ∧ Follows args s entries s' := by
  induction h with
  | done => exact ⟨[], rfl, .done, by simp, .refl unended⟩
  | step head rest ih =>
    obtain ⟨xs, rfl, ran, plain, follows⟩ := head.transcript
    cases follows with
    | onward unended' quiet same_args same_value =>
      obtain ⟨ys, rfl, ran', plain', follows'⟩ := ih unended'
      have others : ∀ e ∈ xs ++ ys, e.1.isRecovery = false := by
        intro e mem
        rcases List.mem_append.1 mem with mem | mem
        · exact plain e mem
        · exact plain' e mem
      exact ⟨xs ++ ys, List.map_append.symm, ran.append ran', others,
        .trans quiet same_args same_value follows'⟩
    | returned quiet =>
      obtain ⟨rfl, rfl, rfl⟩ := rest.of_final rfl
      exact ⟨xs, List.append_nil _, ran, plain, .returned quiet⟩
    | raised quiet =>
      obtain ⟨rfl, rfl, rfl⟩ := rest.of_final rfl
      exact ⟨_, List.append_nil _, ran, plain, .raised quiet⟩

theorem Step.unfailed (h : Step c receiver args callee s w calls states s' w') :
    CallState.failed ∉ states ∧ CallState.recovering ∉ states := by
  cases h <;> simp

/-- An execution enters neither of the states that belong to recoveries. -/
theorem Execution.unfailed (h : Execution c receiver args callee s w calls states s' w') :
    CallState.failed ∉ states ∧ CallState.recovering ∉ states := by
  induction h with
  | done => simp
  | step head _ ih =>
    have own := head.unfailed
    simp only [List.mem_append, not_or]
    exact ⟨⟨own.1, ih.1⟩, own.2, ih.2⟩

end Attempts

/-! ## Rescues -/

/-- The recoveries from a position on, of which there are so many, when `last` was raised before:
they run in order until one returns, and if none does, what was raised last is raised. -/
inductive Rescues (given : Nat → ChainCall σ) : Nat → Nat → Thrown → List (Entry σ) → Outcome → Prop
  | exhausted {k last} : Rescues given k 0 last [] (.raised last)
  | returned {k n last v} : Rescues given k (n + 1) last [(given k, .value v)] (.returned v)
  | raised {k n last t rescue outcome} : Rescues given (k + 1) n t rescue outcome →
      Rescues given k (n + 1) last ((given k, .raised t) :: rescue) outcome

/-- What a recovery is given after callbacks of which the last raised: what was raised, the arguments
as they were, and what returns the last value, or the callee if there is none. -/
def rescueCall (c : Chain σ) (receiver : Value) (args : List Value) (callee : Invoker σ)
    (before : List (Entry σ)) (t : Thrown) (k : Nat) : ChainCall σ :=
  .recovery k receiver (lastArguments args before) t (capability callee (lastValue? none before))
    c.site

/-- The state that a call is in when it has ended. -/
def finalState : Outcome → CallState
  | .returned _ => .returned
  | .raised _ => .propagated

/-- How a call ends, by what it ran before any recovery and the recoveries that it ran. -/
inductive Concludes (c : Chain σ) (receiver : Value) (args : List Value) (callee : Invoker σ) :
    List (Entry σ) → List (Entry σ) → Outcome → List CallState → Prop
  | returned {ran states v} : Quiet ran → CallState.failed ∉ states →
      CallState.recovering ∉ states →
      Concludes c receiver args callee ran [] (.returned v) (states ++ [.returned])
  | propagated {before call t states} : Quiet before → c.recoveries = [] →
      CallState.failed ∉ states → CallState.recovering ∉ states →
      Concludes c receiver args callee (before ++ [(call, .raised t)]) [] (.raised t)
        (states ++ [.failed, .propagated])
  | recovered {before call t states rescue outcome} : Quiet before → c.recoveries ≠ [] →
      CallState.failed ∉ states → CallState.recovering ∉ states →
      Rescues (rescueCall c receiver args callee before t) 0 c.recoveries.length t rescue outcome →
      Concludes c receiver args callee (before ++ [(call, .raised t)]) rescue outcome
        (states ++ [.failed, .recovering, finalState outcome])

/-- The recoveries run as `Rescues` says. -/
theorem rescues_tryRecoveries {c : Chain σ} {callee : Invoker σ} {receiver : Value} {t : Thrown}
    {inner : Invoker (Noted σ)} {last : Thrown} (f : CallFrame (Noted σ)) :
    let tried := Chain.tryRecoveries c.site receiver t inner
      (c.recoveries.zipIdx.map notedRecovery) last f
    tried.2.trace = f.trace ∧ ∃ rescue : List (Entry σ),
      tried.2.world.2 = f.world.2 ++ rescue.map Prod.fst ∧
        Transcript c callee f.world.1 rescue tried.2.world.1 ∧
        Rescues (fun k => .recovery k receiver f.args t inner.quiet c.site) 0 c.recoveries.length
          last rescue tried.1 := by
  rw [← List.length_zipIdx (l := c.recoveries) (i := 0)]
  refine zipIdx_rule (P := fun k rest => ∀ (last : Thrown) (f : CallFrame (Noted σ)),
    let tried := Chain.tryRecoveries c.site receiver t inner (rest.map notedRecovery) last f
    tried.2.trace = f.trace ∧ ∃ rescue : List (Entry σ),
      tried.2.world.2 = f.world.2 ++ rescue.map Prod.fst ∧
        Transcript c callee f.world.1 rescue tried.2.world.1 ∧
        Rescues (fun k => .recovery k receiver f.args t inner.quiet c.site) k rest.length
          last rescue tried.1) ?_ ?_ last f
  · exact fun last f => ⟨rfl, [], (List.append_nil _).symm, .done, .exhausted⟩
  · intro k recover rest at_k onward last f
    rw [List.map_cons, Chain.tryRecoveries]
    simp only [notedRecovery]
    cases ran : recover receiver f.args t inner.quiet c.site f.world.1 with
    | ok v w' =>
      rw [CallFrame.act_noted_ok ran]
      refine ⟨rfl, [(.recovery k receiver f.args t inner.quiet c.site, .value v)], rfl,
        .single ?_, .returned⟩
      simp [ChainCall.answer?, at_k, ran, Answer.ofResult]
    | error t' w' =>
      rw [CallFrame.act_noted_error ran]
      obtain ⟨trace, rescue, log, transcript, rescues⟩ := onward t'
        { f with world := (w', f.world.2 ++
          [.recovery k receiver f.args t inner.quiet c.site]) }
      refine ⟨trace, (.recovery k receiver f.args t inner.quiet c.site, .raised t') :: rescue, ?_,
        .call ?_ transcript, .raised rescues⟩
      · simpa using log
      · simp [ChainCall.answer?, at_k, ran, Answer.ofResult]

/-- The recoveries of a chain run as `Rescues` says, with the arguments and the value so far. -/
theorem rescues_recover {c : Chain σ} {callee : Invoker σ} {receiver : Value} {t : Thrown}
    (some_recovery : c.recoveries ≠ []) (f : CallFrame (Noted σ)) :
    let recovered := c.noted.recover receiver callee.noted t f
    recovered.2.trace = f.trace ++ [.recovering] ∧ ∃ rescue : List (Entry σ),
      recovered.2.world.2 = f.world.2 ++ rescue.map Prod.fst ∧
        Transcript c callee f.world.1 rescue recovered.2.world.1 ∧
        Rescues (fun k => .recovery k receiver f.args t (capability callee f.value?) c.site) 0
          c.recoveries.length t rescue recovered.1 := by
  have tries : c.noted.recover receiver callee.noted t f =
      Chain.tryRecoveries c.site receiver t (Chain.fallback callee.noted (f.enter .recovering))
        ((c.recoveries.zipIdx 0).map notedRecovery) t (f.enter .recovering) := by
    have nonempty : c.noted.recoveries.isEmpty = false := by simpa [Chain.noted] using some_recovery
    simp only [Chain.recover, nonempty]
    rfl
  have given : (Chain.fallback callee.noted (f.enter .recovering)).quiet =
      capability callee f.value? := Invoker.quiet_fallback ..
  rw [tries, ← given]
  exact @rescues_tryRecoveries σ c callee receiver t
    (Chain.fallback callee.noted (f.enter .recovering)) t (f.enter .recovering)

/-! ## Whole calls -/

/-- What a noted call ran is a transcript of an attempt and of the recoveries after it, and the call
has concluded with its outcome. -/
def Accounts (c : Chain σ) (receiver : Value) (args : List Value) (callee : Invoker σ) (w : σ)
    (outcome : Outcome) (f : CallFrame (Noted σ)) : Prop :=
  ∃ ran rescue : List (Entry σ), f.world.2 = (ran ++ rescue).map Prod.fst ∧
    Transcript c callee w (ran ++ rescue) f.world.1 ∧
    (∀ e ∈ ran, e.1.isRecovery = false) ∧
    Concludes c receiver args callee ran rescue outcome f.trace

section Whole

variable {c : Chain σ} {receiver : Value} {args : List Value} {callee : Invoker σ} {w : σ}
  {f : CallFrame (Noted σ)} {states : List CallState}

/-- An execution that returns is the whole call. -/
theorem accounts_returned {calls : List (ChainCall σ)} {v : Value}
    (execution : Execution c receiver args callee (.ignoring 0) w calls states (.returned v)
      f.world.1)
    (log : f.world.2 = calls) (trace : f.trace = .start :: states) :
    Accounts c receiver args callee w (.returned v) (f.enter .returned) := by
  obtain ⟨ran, rfl, transcript, plain, follows⟩ := execution.transcript rfl
  obtain ⟨unfailed, unrecovered⟩ := execution.unfailed
  have traced : (f.enter .returned).trace = .start :: states ++ [.returned] := by
    simp [CallFrame.enter, trace]
  refine ⟨ran, [], ?_, ?_, plain, ?_⟩
  · rw [List.append_nil]
    exact log
  · rw [List.append_nil]
    exact transcript
  · rw [traced]
    exact .returned follows.quiet (by simpa using unfailed) (by simpa using unrecovered)

/-- An execution that raises is the call up to its recoveries. -/
theorem accounts_recover {calls : List (ChainCall σ)} {t : Thrown}
    (execution : Execution c receiver args callee (.ignoring 0) w calls states
      (.raised t f.args f.value?) f.world.1)
    (log : f.world.2 = calls) (trace : f.trace = .start :: states) :
    let recovered := c.noted.recover receiver callee.noted t (f.enter .failed)
    Accounts c receiver args callee w recovered.1
      (recovered.2.enter (finalState recovered.1)) := by
  obtain ⟨ran, rfl, transcript, plain, follows⟩ := execution.transcript rfl
  obtain ⟨before, call, rfl, quiet, args_then, value_then⟩ := follows.raised_last
  obtain ⟨unfailed, unrecovered⟩ := execution.unfailed
  have unfailed : CallState.failed ∉ .start :: states := by simpa using unfailed
  have unrecovered : CallState.recovering ∉ .start :: states := by simpa using unrecovered
  by_cases none : c.recoveries = []
  · have propagates : c.noted.recover receiver callee.noted t (f.enter .failed) =
        (.raised t, f.enter .failed) := by
      simp only [Chain.recover, Chain.noted, none]
      rfl
    have traced : ((f.enter .failed).enter .propagated).trace =
        .start :: states ++ [.failed, .propagated] := by
      simp [CallFrame.enter, trace]
    rw [propagates]
    refine ⟨before ++ [(call, .raised t)], [], ?_, ?_, plain, ?_⟩
    · rw [List.append_nil]
      exact log
    · rw [List.append_nil]
      exact transcript
    · dsimp only [finalState]
      rw [traced]
      exact .propagated quiet none unfailed unrecovered
  · obtain ⟨traced, rescue, rescue_log, rescue_transcript, rescues⟩ :=
      @rescues_recover σ c callee receiver t none (f.enter .failed)
    have given : (fun k => ChainCall.recovery k receiver (f.enter .failed).args t
        (capability callee (f.enter .failed).value?) c.site) =
        rescueCall c receiver args callee before t := by
      have args_then : f.args = lastArguments args before := args_then
      have value_then : f.value? = lastValue? .none before := value_then
      funext k
      rw [rescueCall, ← args_then, ← value_then]
      rfl
    rw [given] at rescues
    have rescue_log := rescue_log.trans (congrArg (· ++ rescue.map Prod.fst) log)
    dsimp only
    generalize c.noted.recover receiver callee.noted t (f.enter .failed) = recovered at *
    have traced' : (recovered.2.enter (finalState recovered.1)).trace =
        .start :: states ++ [.failed, .recovering, finalState recovered.1] := by
      simp only [CallFrame.enter] at traced ⊢
      simp [traced, trace]
    refine ⟨before ++ [(call, .raised t)], rescue, ?_, transcript.append rescue_transcript, plain, ?_⟩
    · rw [List.map_append]
      exact rescue_log
    · rw [traced']
      exact .recovered quiet none unfailed unrecovered rescues

end Whole

end Protocol

namespace Chain

/-- A call that raises is left to the recoveries, with the first exception, the last arguments and
the last value; a call that does not raise runs no recovery. -/
theorem run_concludes (c : Chain σ) (receiver : Value) (args : List Value) (callee : Invoker σ)
    (w : σ) :
    let ended := c.noted.run receiver callee.noted { world := (w, []), args }
    c.run receiver callee { world := w, args } = (ended.1, ended.2.quiet) ∧
      Protocol.Accounts c receiver args callee w ended.1 ended.2 := by
  refine ⟨quiet_run (c := c) { world := (w, []), args }, ?_⟩
  have attempted := @Protocol.leads_attempt σ c receiver args callee
    { world := (w, []), args, trace := [.start] } rfl rfl
  have started : CallFrame.enter .start { world := (w, ([] : List (ChainCall σ))), args } =
      { world := (w, []), args, trace := [.start] } := rfl
  simp only [run, started]
  cases attempt : c.noted.attempt receiver callee.noted
    { world := (w, []), args, trace := [.start] } with
  | ok v f =>
    rw [attempt] at attempted
    obtain ⟨⟨calls, states, execution, log, trace⟩, -⟩ := attempted
    exact Protocol.accounts_returned execution log trace
  | error t f =>
    rw [attempt] at attempted
    obtain ⟨calls, states, execution, log, trace⟩ := attempted
    have accounted := Protocol.accounts_recover execution log trace
    dsimp only at accounted ⊢
    cases recovered : c.noted.recover receiver callee.noted t (f.enter .failed) with
    | mk outcome f' =>
      rw [recovered] at accounted
      cases outcome with
      | returned v => exact accounted
      | raised t' => exact accounted

end Chain

end Weft
