import Weft.Proofs.Call.Protocol

/-!
# Chains follow the protocol

The noted chain is the chain with callbacks that note, before they run, what they were given. Each
part of a call of the noted chain is an execution of the protocol.
-/

namespace Weft

variable {σ : Type}

/-! ## Notes -/

/-- A world with notes of what was run in it. -/
abbrev Noted (σ : Type) := σ × List (ChainCall σ)

/-- The action with a note of it before it runs. -/
def Action.noted {α : Type} (call : ChainCall σ) (a : Action σ α) : Action (Noted σ) α :=
  Action.within Prod.fst (fun w s => (w, s.2 ++ [call])) a

/-- The callee with a note of each call. -/
def Invoker.noted (callee : Invoker σ) : Invoker (Noted σ) := fun receiver args =>
  (callee receiver args).noted (.callee receiver args)

/-- What an invoker does to the world, whatever it notes. -/
def Invoker.quiet (invoker : Invoker (Noted σ)) : Invoker σ := fun receiver args =>
  Action.within (fun w => (w, [])) (fun s _ => s.1) (invoker receiver args)

/-- The ignore at a position, with a note of what it is given. -/
def notedIgnore (ignore : IgnoreCallback σ × Nat) : IgnoreCallback (Noted σ) :=
  fun receiver args site => (ignore.1 receiver args site).noted (.ignore ignore.2 receiver args site)

/-- The pre-hook at a position, with a note of what it is given. -/
def notedPreHook (hook : PreCallback σ × Nat) : PreCallback (Noted σ) :=
  fun receiver args site => (hook.1 receiver args site).noted (.preHook hook.2 receiver args site)

/-- The replacement at a position, with a note of what it is given. What it runs itself by its
invoker is not noted. -/
def notedReplacement (replace : ReplaceCallback σ × Nat) : ReplaceCallback (Noted σ) :=
  fun receiver args invoker site => (replace.1 receiver args invoker.quiet site).noted
    (.replacement replace.2 receiver args invoker.quiet site)

/-- The post-hook at a position, with a note of what it is given. -/
def notedPostHook (hook : PostCallback σ × Nat) : PostCallback (Noted σ) :=
  fun receiver args value site => (hook.1 receiver args value site).noted
    (.postHook hook.2 receiver args value site)

/-- The recovery at a position, with a note of what it is given. -/
def notedRecovery (recover : RecoverCallback σ × Nat) : RecoverCallback (Noted σ) :=
  fun receiver args thrown invoker site => (recover.1 receiver args thrown invoker.quiet site).noted
    (.recovery recover.2 receiver args thrown invoker.quiet site)

/-- The chain with callbacks that note what they are given. -/
def Chain.noted (c : Chain σ) : Chain (Noted σ) where
  site := c.site
  ignores := c.ignores.zipIdx.map notedIgnore
  preHooks := c.preHooks.zipIdx.map notedPreHook
  replacements := c.replacements.zipIdx.map notedReplacement
  postHooks := c.postHooks.zipIdx.map notedPostHook
  recoveries := c.recoveries.zipIdx.map notedRecovery

theorem Invoker.quiet_noted (callee : Invoker σ) : callee.noted.quiet = callee := by
  funext receiver args w
  simp only [Invoker.quiet, Invoker.noted, Action.noted, Action.within]
  cases callee receiver args w <;> rfl

theorem Invoker.quiet_fallback (callee : Invoker σ) (f : CallFrame (Noted σ)) :
    (Chain.fallback callee.noted f).quiet = Protocol.capability callee f.value? := by
  unfold Chain.fallback
  cases f.value? with
  | none => exact callee.quiet_noted
  | some v => rfl

/-- Running a noted action changes the world as the action does, and notes it. -/
theorem CallFrame.act_noted_ok {α : Type} {call : ChainCall σ} {a : Action σ α} {w' : σ} {v : α}
    {f : CallFrame (Noted σ)} (h : a f.world.1 = .ok v w') :
    CallFrame.act (a.noted call) f =
      .ok v { f with world := (w', f.world.2 ++ [call]) } := by
  simp only [CallFrame.act, Action.noted, Action.within, h]

theorem CallFrame.act_noted_error {α : Type} {call : ChainCall σ} {a : Action σ α} {w' : σ}
    {t : Thrown} {f : CallFrame (Noted σ)} (h : a f.world.1 = .error t w') :
    CallFrame.act (a.noted call) f =
      .error t { f with world := (w', f.world.2 ++ [call]) } := by
  simp only [CallFrame.act, Action.noted, Action.within, h]

/-! ## Frames in an execution -/

namespace Protocol

section Reaches

variable (c : Chain σ) (receiver : Value) (args : List Value) (callee : Invoker σ)

/-- From a stage an execution leads to another, and its callbacks and states are what the second
frame has more than the first. -/
def Reaches (s : Stage) (f : CallFrame (Noted σ)) (s' : Stage) (f' : CallFrame (Noted σ)) : Prop :=
  ∃ calls states, Execution c receiver args callee s f.world.1 calls states s' f'.world.1 ∧
    f'.world.2 = f.world.2 ++ calls ∧ f'.trace = f.trace ++ states

end Reaches

variable {c : Chain σ} {receiver : Value} {args : List Value} {callee : Invoker σ}

namespace Reaches

variable {s s' s'' : Stage} {f f' f'' : CallFrame (Noted σ)}

theorem trans (first : Reaches c receiver args callee s f s' f')
    (rest : Reaches c receiver args callee s' f' s'' f'') :
    Reaches c receiver args callee s f s'' f'' := by
  obtain ⟨calls, states, run, log, trace⟩ := first
  obtain ⟨calls', states', run', log', trace'⟩ := rest
  refine ⟨calls ++ calls', states ++ states', run.append run', ?_, ?_⟩
  · rw [log', log, List.append_assoc]
  · rw [trace', trace, List.append_assoc]

theorem of_step {calls : List (ChainCall σ)} {states : List CallState}
    (h : Step c receiver args callee s f.world.1 calls states s' f'.world.1)
    (log : f'.world.2 = f.world.2 ++ calls) (trace : f'.trace = f.trace ++ states) :
    Reaches c receiver args callee s f s' f' :=
  ⟨calls, states, .single h, log, trace⟩

end Reaches

/-! ## The parts of a call -/

/-- What holds behind the last item, and from an item on if it holds behind that, holds from the
first item on. -/
theorem zipIdx_rule {α : Type} {items : List α} {P : Nat → List (α × Nat) → Prop}
    (done : P items.length [])
    (step : ∀ k a rest, items[k]? = some a → P (k + 1) rest → P k ((a, k) :: rest)) :
    P 0 items.zipIdx := by
  suffices behind : ∀ rest before, items = before ++ rest →
      P before.length (rest.zipIdx before.length) from behind items [] rfl
  intro rest
  induction rest with
  | nil =>
    intro before split
    rw [List.append_nil] at split
    exact split ▸ done
  | cons a rest ih =>
    intro before split
    have here : items[before.length]? = some a := by simp [split]
    have onward := ih (before ++ [a]) (by simp [split])
    rw [List.length_append, List.length_singleton] at onward
    exact step _ a _ here onward

/-- What a part of a call leads to: the stage `next`, where `also` holds, or one in which it raised. -/
def Leads {α : Type} (c : Chain σ) (receiver : Value) (args : List Value) (callee : Invoker σ)
    (s : Stage) (f : CallFrame (Noted σ)) (next : α → CallFrame (Noted σ) → Stage)
    (also : α → CallFrame (Noted σ) → Prop) :
    EStateM.Result Thrown (CallFrame (Noted σ)) α → Prop
  | .ok a f' => Reaches c receiver args callee s f (next a f') f' ∧ also a f'
  | .error t f' => Reaches c receiver args callee s f (.raised t f'.args f'.value?) f'

namespace Leads

variable {α β : Type} {s s' : Stage} {f f' : CallFrame (Noted σ)}
  {next : α → CallFrame (Noted σ) → Stage} {also : α → CallFrame (Noted σ) → Prop}
  {next' : β → CallFrame (Noted σ) → Stage} {also' : β → CallFrame (Noted σ) → Prop}

theorem after {result : EStateM.Result Thrown (CallFrame (Noted σ)) α}
    (first : Reaches c receiver args callee s f s' f')
    (rest : Leads c receiver args callee s' f' next also result) :
    Leads c receiver args callee s f next also result := by
  cases result with
  | ok a f'' => exact ⟨first.trans rest.1, rest.2⟩
  | error t f'' => exact first.trans rest

theorem bind {x : CallStep (Noted σ) α} {k : α → CallStep (Noted σ) β}
    (first : Leads c receiver args callee s f next also (x f))
    (rest : ∀ a f', also a f' → Leads c receiver args callee (next a f') f' next' also' (k a f')) :
    Leads c receiver args callee s f next' also' ((x >>= k) f) := by
  cases ran : x f with
  | ok a f' =>
    rw [ran] at first
    rw [step_bind_ok ran]
    exact after first.1 (rest a f' first.2)
  | error t f' =>
    rw [ran] at first
    rw [step_bind_error ran]
    exact first

end Leads

theorem leads_ignored {f : CallFrame (Noted σ)} (given : f.args = args) (fresh : f.value? = none) :
    Leads c receiver args callee (.ignoring 0) f
      (fun accepted _ => if accepted then .ignored else .preparing 0 args)
      (fun _ f' => f'.args = args ∧ f'.value? = none)
      (Chain.ignored c.site receiver (c.ignores.zipIdx.map notedIgnore) f) := by
  refine zipIdx_rule (P := fun k rest => ∀ f : CallFrame (Noted σ), f.args = args →
    f.value? = none → Leads c receiver args callee (.ignoring k) f
      (fun accepted _ => if accepted then .ignored else .preparing 0 args)
      (fun _ f' => f'.args = args ∧ f'.value? = none)
      (Chain.ignored c.site receiver (rest.map notedIgnore) f)) ?_ ?_ f given fresh
  · exact fun f given fresh => ⟨.of_step (.pass rfl) (by simp) (by simp), given, fresh⟩
  · intro k ignore rest at_k onward f given fresh
    rw [List.map_cons, Chain.ignored, step_get_bind, given]
    simp only [notedIgnore]
    cases ran : ignore receiver args c.site f.world.1 with
    | error t w' =>
      rw [step_bind_error (CallFrame.act_noted_error ran), Leads, given, fresh]
      exact .of_step (.ignoreRaises at_k ran) rfl (by simp)
    | ok accepted w' =>
      rw [step_bind_ok (CallFrame.act_noted_ok ran)]
      cases accepted with
      | true => exact ⟨.of_step (.accept at_k ran) rfl (by simp), given, fresh⟩
      | false => exact .after (.of_step (.refuse at_k ran) rfl (by simp)) (onward _ given fresh)

theorem leads_applyPreHooks {f : CallFrame (Noted σ)} (fresh : f.value? = none) :
    Leads c receiver args callee (.preparing 0 f.args) f
      (fun _ f' => .preparing c.preHooks.length f'.args) (fun _ f' => f'.value? = none)
      (Chain.applyPreHooks c.site receiver (c.preHooks.zipIdx.map notedPreHook) f) := by
  refine zipIdx_rule (P := fun k rest => ∀ f : CallFrame (Noted σ), f.value? = none →
    Leads c receiver args callee (.preparing k f.args) f
      (fun _ f' => .preparing c.preHooks.length f'.args) (fun _ f' => f'.value? = none)
      (Chain.applyPreHooks c.site receiver (rest.map notedPreHook) f)) ?_ ?_ f fresh
  · exact fun f fresh => ⟨⟨[], [], .done, by simp, by simp⟩, fresh⟩
  · intro k hook rest at_k onward f fresh
    rw [List.map_cons, Chain.applyPreHooks, step_get_bind]
    simp only [notedPreHook]
    cases ran : hook receiver f.args c.site f.world.1 with
    | error t w' =>
      rw [step_bind_error (CallFrame.act_noted_error ran), Leads, fresh]
      exact .of_step (.prepareRaises at_k ran) rfl (by simp)
    | ok as w' =>
      rw [step_bind_ok (CallFrame.act_noted_ok ran), step_modify_bind]
      exact .after (.of_step (.prepare at_k ran) rfl (by simp)) (onward _ fresh)

theorem leads_applyReplacements {f : CallFrame (Noted σ)} (some_made : c.replacements ≠ []) :
    Leads c receiver args callee (.making 0 f.args f.value?) f
      (fun _ f' => .making c.replacements.length f'.args f'.value?) (fun _ f' => f'.value?.isSome)
      (Chain.applyReplacements c.site receiver callee.noted
        (c.replacements.zipIdx.map notedReplacement) f) := by
  -- a value is there once no replacement is left
  refine zipIdx_rule (P := fun k rest => ∀ f : CallFrame (Noted σ), rest ≠ [] ∨ f.value?.isSome →
    Leads c receiver args callee (.making k f.args f.value?) f
      (fun _ f' => .making c.replacements.length f'.args f'.value?) (fun _ f' => f'.value?.isSome)
      (Chain.applyReplacements c.site receiver callee.noted (rest.map notedReplacement) f))
    ?_ ?_ f (.inl (by simpa using some_made))
  · exact fun f made => ⟨⟨[], [], .done, by simp, by simp⟩, made.resolve_left (· rfl)⟩
  · intro k replace rest at_k onward f _
    rw [List.map_cons, Chain.applyReplacements, step_get_bind]
    simp only [notedReplacement, Invoker.quiet_fallback]
    cases ran : replace receiver f.args (capability callee f.value?) c.site f.world.1 with
    | error t w' =>
      rw [step_bind_error (CallFrame.act_noted_error ran), Leads]
      exact .of_step (.replaceRaises at_k ran) rfl (by simp)
    | ok v w' =>
      rw [step_bind_ok (CallFrame.act_noted_ok ran), step_modify_bind]
      exact .after (.of_step (.replace at_k ran) rfl (by simp [CallFrame.keep]))
        (onward _ (.inr rfl))

theorem leads_applyPostHooks {f : CallFrame (Noted σ)} {v : Value} (made : f.value? = some v) :
    Leads c receiver args callee (.finishing 0 f.args v) f
      (fun _ f' => .finishing c.postHooks.length f'.args (f'.value?.getD .void)) (fun _ _ => True)
      (Chain.applyPostHooks c.site receiver (c.postHooks.zipIdx.map notedPostHook) f) := by
  refine zipIdx_rule (P := fun k rest => ∀ (f : CallFrame (Noted σ)) v, f.value? = some v →
    Leads c receiver args callee (.finishing k f.args v) f
      (fun _ f' => .finishing c.postHooks.length f'.args (f'.value?.getD .void)) (fun _ _ => True)
      (Chain.applyPostHooks c.site receiver (rest.map notedPostHook) f)) ?_ ?_ f v made
  · intro f v made
    refine ⟨⟨[], [], ?_, by simp, by simp⟩, trivial⟩
    simp only [made, Option.getD_some]
    exact .done
  · intro k hook rest at_k onward f v made
    rw [List.map_cons, Chain.applyPostHooks, step_get_bind]
    simp only [notedPostHook, made, Option.getD_some]
    cases ran : hook receiver f.args v c.site f.world.1 with
    | error t w' =>
      rw [step_bind_error (CallFrame.act_noted_error ran), Leads, made]
      exact .of_step (.finishRaises at_k ran) rfl (by simp)
    | ok v' w' =>
      rw [step_bind_ok (CallFrame.act_noted_ok ran), step_modify_bind]
      exact .after (.of_step (.finish at_k ran) rfl (by simp [CallFrame.keep])) (onward _ _ rfl)

theorem leads_makeValue {f : CallFrame (Noted σ)} (fresh : f.value? = none) :
    Leads c receiver args callee (.making 0 f.args none) f
      (fun _ f' => .finishing 0 f'.args (f'.value?.getD .void)) (fun _ f' => f'.value?.isSome)
      (c.noted.makeValue receiver callee.noted f) := by
  unfold Chain.makeValue
  by_cases none : c.replacements = []
  · have no_noted : c.noted.replacements.isEmpty = true := by simp [Chain.noted, none]
    rw [if_pos no_noted, step_get_bind]
    simp only [Invoker.noted]
    cases ran : callee receiver f.args f.world.1 with
    | error t w' =>
      rw [step_bind_error (CallFrame.act_noted_error ran), Leads, fresh]
      exact .of_step (.invokeRaises none ran) rfl (by simp)
    | ok v w' =>
      rw [step_bind_ok (CallFrame.act_noted_ok ran), step_modify_bind]
      exact ⟨.of_step (.invoke none ran) rfl rfl, rfl⟩
  · have some_noted : ¬ c.noted.replacements.isEmpty = true := by simp [Chain.noted, none]
    rw [if_neg some_noted]
    have replaced := @leads_applyReplacements σ c receiver args callee f none
    rw [fresh] at replaced
    refine replaced.bind fun _ f' made => ?_
    obtain ⟨v, made⟩ := Option.isSome_iff_exists.1 made
    have last : Step c receiver args callee (.making c.replacements.length f'.args (some v))
        f'.world.1 [] [.replaced] (.finishing 0 f'.args v) f'.world.1 := .replaced rfl
    have value : (f'.enter .replaced).value?.getD .void = v := by simp [CallFrame.enter, made]
    rw [← made, ← value] at last
    exact ⟨.of_step last (by simp [CallFrame.enter]) rfl, by simp [CallFrame.enter, made]⟩

/-- A call of the noted chain up to the first exception is an execution of the protocol. -/
theorem leads_attempt {f : CallFrame (Noted σ)} (given : f.args = args) (fresh : f.value? = none) :
    Leads c receiver args callee (.ignoring 0) f (fun v _ => .returned v) (fun _ _ => True)
      (c.noted.attempt receiver callee.noted f) := by
  refine (leads_ignored given fresh).bind fun accepted f₁ ⟨given, fresh⟩ => ?_
  cases accepted with
  | true => exact ⟨.of_step .leave (by simp [CallFrame.enter]) rfl, trivial⟩
  | false =>
    have prepared := @leads_applyPreHooks σ c receiver args callee f₁ fresh
    rw [given] at prepared
    refine prepared.bind fun _ f₂ fresh => ?_
    have ready : Reaches c receiver args callee (.preparing c.preHooks.length f₂.args) f₂
        (.making 0 f₂.args none) (f₂.enter .preHooksApplied) :=
      .of_step (.prepared rfl) (by simp [CallFrame.enter]) rfl
    refine .after ready ?_
    have made := @leads_makeValue σ c receiver args callee (f₂.enter .preHooksApplied) fresh
    refine made.bind fun _ f₃ made => ?_
    obtain ⟨v, made⟩ := Option.isSome_iff_exists.1 made
    simp only [made]
    refine (leads_applyPostHooks made).bind fun _ f₄ _ => ?_
    exact ⟨.of_step (.finished rfl) (by simp [CallFrame.enter]) rfl, trivial⟩

end Protocol

/-! ## Recoveries -/

/-- After an exception a noted chain runs recoveries only, each at most once. -/
theorem Chain.notes_tryRecoveries {site : MethodSite} {receiver : Value} {thrown : Thrown}
    {inner : Invoker (Noted σ)} {rest : List (RecoverCallback σ)} {k : Nat} {last : Thrown}
    (f : CallFrame (Noted σ)) :
    let tried := tryRecoveries site receiver thrown inner ((rest.zipIdx k).map notedRecovery) last f
    tried.2.trace = f.trace ∧ ∃ later, tried.2.world.2 = f.world.2 ++ later ∧
      (∀ call ∈ later, call.isRecovery ∧ k ≤ call.place.2) ∧
      later.Pairwise ChainCall.IsBefore := by
  induction rest generalizing k last f with
  | nil => exact ⟨rfl, [], by simp [tryRecoveries]; rfl, by simp, .nil⟩
  | cons recover rest ih =>
    rw [List.zipIdx_cons, List.map_cons, tryRecoveries]
    simp only [notedRecovery]
    cases ran : recover receiver f.args thrown inner.quiet site f.world.1 with
    | ok v w' =>
      rw [CallFrame.act_noted_ok ran]
      exact ⟨rfl, _, rfl, by simp [ChainCall.isRecovery, ChainCall.place],
        List.pairwise_singleton _ _⟩
    | error t w' =>
      rw [CallFrame.act_noted_error ran]
      obtain ⟨trace, later, log, recoveries, sorted⟩ := @ih (k + 1) t
        { f with world := (w', f.world.2 ++ [.recovery k receiver f.args thrown inner.quiet site]) }
      refine ⟨trace, .recovery k receiver f.args thrown inner.quiet site :: later, ?_, ?_, ?_⟩
      · simpa using log
      · intro call mem
        rcases List.mem_cons.1 mem with rfl | mem
        · exact ⟨rfl, Nat.le_refl k⟩
        · obtain ⟨is_recovery, after⟩ := recoveries call mem
          exact ⟨is_recovery, by omega⟩
      · refine List.pairwise_cons.2 ⟨fun call mem => ?_, sorted⟩
        obtain ⟨is_recovery, after⟩ := recoveries call mem
        cases call with
        | recovery => exact Prod.Lex.right _ after
        | _ => cases is_recovery

theorem Chain.notes_recover {c : Chain σ} {receiver : Value} {callee : Invoker (Noted σ)}
    {thrown : Thrown} (f : CallFrame (Noted σ)) :
    let recovered := c.noted.recover receiver callee thrown f
    (∃ states, recovered.2.trace = f.trace ++ states) ∧
      ∃ later, recovered.2.world.2 = f.world.2 ++ later ∧ (∀ call ∈ later, call.isRecovery) ∧
        later.Pairwise ChainCall.IsBefore := by
  unfold recover
  split
  · exact ⟨⟨[], (List.append_nil _).symm⟩, [], (List.append_nil _).symm, by simp, .nil⟩
  · obtain ⟨trace, later, log, recoveries, sorted⟩ := @notes_tryRecoveries σ c.site
      receiver thrown (fallback callee (f.enter .recovering)) c.recoveries 0 thrown
      (f.enter .recovering)
    exact ⟨⟨[.recovering], trace⟩, later, log, fun call mem => (recoveries call mem).1, sorted⟩

/-! ## What notes leave unchanged -/

/-- The frame without what was noted. -/
def CallFrame.quiet (f : CallFrame (Noted σ)) : CallFrame σ :=
  ⟨f.world.1, f.args, f.value?, f.trace⟩

/-- The result without what was noted. -/
def quietResult {α : Type} : EStateM.Result Thrown (CallFrame (Noted σ)) α →
    EStateM.Result Thrown (CallFrame σ) α
  | .ok a f => .ok a f.quiet
  | .error t f => .error t f.quiet

/-- The second part does what the first does, without notes. -/
def Mutes {α : Type} (x : CallStep (Noted σ) α) (y : CallStep σ α) : Prop :=
  ∀ f, y f.quiet = quietResult (x f)

namespace Mutes

variable {α β : Type}

theorem pure (a : α) : Mutes (Pure.pure a : CallStep (Noted σ) α) (Pure.pure a) := fun _ => rfl

theorem bind {x : CallStep (Noted σ) α} {y : CallStep σ α} {k : α → CallStep (Noted σ) β}
    {l : α → CallStep σ β} (first : Mutes x y) (rest : ∀ a, Mutes (k a) (l a)) :
    Mutes (x >>= k) (y >>= l) := by
  intro f
  have ran := first f
  cases h : x f with
  | ok a f' =>
    rw [h] at ran
    rw [step_bind_ok h, step_bind_ok ran]
    exact rest a f'
  | error t f' =>
    rw [h] at ran
    rw [step_bind_error h, step_bind_error ran]
    rfl

theorem get {k : CallFrame (Noted σ) → CallStep (Noted σ) β} {l : CallFrame σ → CallStep σ β}
    (rest : ∀ f, Mutes (k f) (l f.quiet)) : Mutes (MonadState.get >>= k) (MonadState.get >>= l) :=
  fun f => rest f f

theorem change {g : CallFrame (Noted σ) → CallFrame (Noted σ)} {h : CallFrame σ → CallFrame σ}
    (same : ∀ f, h f.quiet = (g f).quiet) :
    Mutes (modify g : CallStep (Noted σ) PUnit) (modify h) := by
  intro f
  show EStateM.Result.ok _ _ = _
  rw [same]
  rfl

theorem act {call : ChainCall σ} {a : Action σ α} :
    Mutes (CallFrame.act (a.noted call)) (CallFrame.act a) := by
  intro f
  cases ran : a f.world.1 with
  | ok v w' =>
    rw [CallFrame.act_noted_ok ran]
    simp only [CallFrame.act, Action.within, CallFrame.quiet, ran, quietResult]
  | error t w' =>
    rw [CallFrame.act_noted_error ran]
    simp only [CallFrame.act, Action.within, CallFrame.quiet, ran, quietResult]

end Mutes

namespace Chain

variable {c : Chain σ} {site : MethodSite} {receiver : Value} {callee : Invoker σ}

theorem mutes_ignored (ignores : List (IgnoreCallback σ)) (k : Nat) :
    Mutes (ignored site receiver ((ignores.zipIdx k).map notedIgnore))
      (ignored site receiver ignores) := by
  induction ignores generalizing k with
  | nil => exact .pure false
  | cons ignore rest ih =>
    refine .get fun f => Mutes.act.bind fun accepted => ?_
    cases accepted with
    | true => exact .pure true
    | false => exact ih (k + 1)

theorem mutes_applyPreHooks (hooks : List (PreCallback σ)) (k : Nat) :
    Mutes (applyPreHooks site receiver ((hooks.zipIdx k).map notedPreHook))
      (applyPreHooks site receiver hooks) := by
  induction hooks generalizing k with
  | nil => exact .pure ()
  | cons hook rest ih =>
    exact .get fun f => Mutes.act.bind fun args => (Mutes.change fun _ => rfl).bind fun _ => ih (k + 1)

theorem quiet_fallback (callee : Invoker σ) (f : CallFrame (Noted σ)) :
    (fallback callee.noted f).quiet = fallback callee f.quiet := by
  rw [Invoker.quiet_fallback, fallback, CallFrame.quiet]
  cases f.value? <;> rfl

theorem mutes_applyReplacements (replacements : List (ReplaceCallback σ)) (k : Nat) :
    Mutes (applyReplacements site receiver callee.noted
        ((replacements.zipIdx k).map notedReplacement))
      (applyReplacements site receiver callee replacements) := by
  induction replacements generalizing k with
  | nil => exact .pure ()
  | cons replace rest ih =>
    refine .get fun f => Mutes.bind ?_ fun v => (Mutes.change fun _ => rfl).bind fun _ => ih (k + 1)
    rw [notedReplacement, quiet_fallback]
    exact .act

theorem mutes_applyPostHooks (hooks : List (PostCallback σ)) (k : Nat) :
    Mutes (applyPostHooks site receiver ((hooks.zipIdx k).map notedPostHook))
      (applyPostHooks site receiver hooks) := by
  induction hooks generalizing k with
  | nil => exact .pure ()
  | cons hook rest ih =>
    exact .get fun f => Mutes.act.bind fun v => (Mutes.change fun _ => rfl).bind fun _ => ih (k + 1)

theorem mutes_makeValue : Mutes (c.noted.makeValue receiver callee.noted)
    (c.makeValue receiver callee) := by
  unfold makeValue
  have same : c.noted.replacements.isEmpty = c.replacements.isEmpty := by
    cases h : c.replacements <;> simp [noted, h]
  rw [same]
  split
  · refine .get fun f => Mutes.act.bind fun v => ?_
    exact (Mutes.change fun _ => rfl).bind fun _ => .change fun _ => rfl
  · exact (mutes_applyReplacements _ 0).bind fun _ => .change fun _ => rfl

theorem mutes_attempt : Mutes (c.noted.attempt receiver callee.noted)
    (c.attempt receiver callee) := by
  refine (mutes_ignored _ 0).bind fun accepted => ?_
  cases accepted with
  | true => exact (Mutes.change fun _ => rfl).bind fun _ => .pure _
  | false =>
    refine (mutes_applyPreHooks _ 0).bind fun _ => (Mutes.change fun _ => rfl).bind fun _ => ?_
    refine mutes_makeValue.bind fun _ => (mutes_applyPostHooks _ 0).bind fun _ => ?_
    exact (Mutes.change fun _ => rfl).bind fun _ => .get fun f => .pure _

theorem quiet_tryRecoveries {thrown : Thrown} {inner : Invoker (Noted σ)}
    (recoveries : List (RecoverCallback σ)) (k : Nat) (last : Thrown) (f : CallFrame (Noted σ)) :
    let tried := tryRecoveries site receiver thrown inner ((recoveries.zipIdx k).map notedRecovery)
      last f
    tryRecoveries site receiver thrown inner.quiet recoveries last f.quiet =
      (tried.1, tried.2.quiet) := by
  induction recoveries generalizing k last f with
  | nil => rfl
  | cons recover rest ih =>
    have muted : Mutes (CallFrame.act ((recover receiver f.args thrown inner.quiet site).noted
        (.recovery k receiver f.args thrown inner.quiet site)))
        (CallFrame.act (recover receiver f.args thrown inner.quiet site)) := .act
    have ran := muted f
    rw [List.zipIdx_cons, List.map_cons, tryRecoveries, tryRecoveries]
    simp only [notedRecovery]
    rw [show f.quiet.args = f.args from rfl, ran]
    cases CallFrame.act ((recover receiver f.args thrown inner.quiet site).noted
      (.recovery k receiver f.args thrown inner.quiet site)) f with
    | ok v f' => rfl
    | error t f' => exact ih (k + 1) t f'

theorem quiet_recover {thrown : Thrown} (f : CallFrame (Noted σ)) :
    let recovered := c.noted.recover receiver callee.noted thrown f
    c.recover receiver callee thrown f.quiet = (recovered.1, recovered.2.quiet) := by
  have same : c.noted.recoveries.isEmpty = c.recoveries.isEmpty := by
    cases h : c.recoveries <;> simp [noted, h]
  unfold recover
  simp only [same]
  split
  · rfl
  · have tried := @quiet_tryRecoveries σ c.site receiver thrown
      (fallback callee.noted (f.enter .recovering)) c.recoveries 0 thrown (f.enter .recovering)
    rw [quiet_fallback] at tried
    exact tried

/-- Notes change neither the outcome of a call nor what it does. -/
theorem quiet_run (f : CallFrame (Noted σ)) :
    let ended := c.noted.run receiver callee.noted f
    c.run receiver callee f.quiet = (ended.1, ended.2.quiet) := by
  have attempted : c.attempt receiver callee (f.quiet.enter .start) = _ :=
    mutes_attempt (f.enter .start)
  simp only [run, attempted]
  cases c.noted.attempt receiver callee.noted (f.enter .start) with
  | ok v f' => rfl
  | error t f' =>
    have recovered := @quiet_recover σ c receiver callee t (f'.enter .failed)
    simp only [quietResult]
    rw [show f'.quiet.enter .failed = (f'.enter .failed).quiet from rfl, recovered]
    cases c.noted.recover receiver callee.noted t (f'.enter .failed) with
    | mk outcome f'' => cases outcome <;> rfl

end Chain

/-! ## Whole calls -/

/-- How a call of the noted chain ends that follows the protocol: with the value, the notes and the
states of an execution, or with those up to an exception and recoveries after it. -/
inductive Protocol.Conforms (c : Chain σ) (receiver : Value) (args : List Value)
    (callee : Invoker σ) (w : σ) : Outcome → CallFrame (Noted σ) → Prop
  | returned {calls states v w' f} :
      Execution c receiver args callee (.ignoring 0) w calls states (.returned v) w' →
      f.world = (w', calls) → f.trace = .start :: (states ++ [.returned]) →
      Conforms c receiver args callee w (.returned v) f
  | raised {calls states t as value? w' later rest outcome f} :
      Execution c receiver args callee (.ignoring 0) w calls states (.raised t as value?) w' →
      f.world.2 = calls ++ later → (∀ call ∈ later, call.isRecovery) →
      f.trace = .start :: (states ++ .failed :: rest) →
      Conforms c receiver args callee w outcome f

namespace Chain

/-- Every call follows the protocol up to the first exception, and runs each callback at most once
and in order. -/
theorem run_conforms (c : Chain σ) (receiver : Value) (args : List Value) (callee : Invoker σ)
    (w : σ) :
    let ended := c.noted.run receiver callee.noted { world := (w, []), args }
    c.run receiver callee { world := w, args } = (ended.1, ended.2.quiet) ∧
      Protocol.Conforms c receiver args callee w ended.1 ended.2 ∧
      ended.2.world.2.Pairwise ChainCall.IsBefore := by
  refine ⟨quiet_run (c := c) { world := (w, []), args }, ?_⟩
  have attempted := @Protocol.leads_attempt σ c receiver args callee
    { world := (w, []), args, trace := [.start] } rfl rfl
  have started : CallFrame.enter .start { world := (w, ([] : List (ChainCall σ))), args } =
      { world := (w, []), args, trace := [.start] } := rfl
  simp only [run, started]
  cases ran : c.noted.attempt receiver callee.noted
    { world := (w, []), args, trace := [.start] } with
  | ok v f =>
    rw [ran] at attempted
    obtain ⟨⟨calls, states, execution, log, trace⟩, -⟩ := attempted
    obtain rfl : f.world.2 = calls := log
    exact ⟨.returned execution rfl (by simp [CallFrame.enter, trace]), execution.place.2.1⟩
  | error t f =>
    rw [ran] at attempted
    obtain ⟨calls, states, execution, log, trace⟩ := attempted
    obtain rfl : f.world.2 = calls := log
    obtain ⟨⟨rest, trace'⟩, later, log', recoveries, sorted⟩ := @notes_recover σ c
      receiver callee.noted t (f.enter .failed)
    have ordered : (f.world.2 ++ later).Pairwise ChainCall.IsBefore := by
      refine List.pairwise_append.2 ⟨execution.place.2.1, sorted, fun call mem call' mem' => ?_⟩
      have before := (execution.place.2.2 call mem).2
      cases call' with
      | recovery =>
        simp only [ChainCall.IsBefore, Prod.lex_def, ChainCall.place, Protocol.Stage.place]
          at before ⊢
        omega
      | _ => cases recoveries _ mem'
    dsimp only
    cases recovered : c.noted.recover receiver callee.noted t (f.enter .failed) with
    | mk outcome f' =>
      rw [recovered] at trace' log'
      have concluded : ∀ last outcome,
          Protocol.Conforms c receiver args callee w outcome (f'.enter last) ∧
            (f'.enter last).world.2.Pairwise ChainCall.IsBefore := fun last outcome => by
        have states' : (f'.enter last).trace = .start :: (states ++ .failed :: (rest ++ [last])) := by
          simp only [CallFrame.enter] at trace' ⊢
          simp [trace, trace']
        refine ⟨.raised execution log' recoveries states', ?_⟩
        exact (show (f'.enter last).world.2 = f.world.2 ++ later from log') ▸ ordered
      cases outcome with
      | returned v => exact concluded _ _
      | raised t' => exact concluded _ _

end Chain

end Weft
