import Weft.Error
import Weft.Injection.Basic

/-!
# Interception

A chain holds the callbacks around the calls of a method, the callee. A call runs through a
protocol: the ignores may end it with the default value; the pre-hooks change the arguments in turn;
the replacements, or without any the callee, make the value, each replacement after the first on
what the one before it made; the post-hooks change the value. When anything raises, the recoveries
are tried in turn with the first exception, the arguments as they were then, and a fallback: the
value if there is one, the callee otherwise.
-/

namespace Weft

/-- A state that a call goes through. -/
inductive CallState where
  | start | ignored | preHooksApplied | replaced | invoked | postHooksApplied | failed | recovering
  | returned | propagated
  deriving DecidableEq, Repr, Inhabited

/-- The state in words joined by underscores. -/
def CallState.word : CallState → String
  | start => "START"
  | ignored => "IGNORED"
  | preHooksApplied => "PRE_HOOKS_APPLIED"
  | replaced => "REPLACED"
  | invoked => "INVOKED"
  | postHooksApplied => "POST_HOOKS_APPLIED"
  | failed => "FAILED"
  | recovering => "RECOVERING"
  | returned => "RETURNED"
  | propagated => "PROPAGATED"

/-- A call in progress: the world, the arguments and the value so far, and the states entered. -/
structure CallFrame (σ : Type) where
  world : σ
  args : List Value
  value? : Option Value := none
  trace : List CallState := []

/-- A part of a call. -/
abbrev CallStep (σ α : Type) := EStateM Thrown (CallFrame σ) α

namespace CallFrame

variable {σ : Type}

/-- Runs a callback. -/
def act {α : Type} (a : Action σ α) : CallStep σ α :=
  Action.within CallFrame.world (fun world f => { f with world }) a

/-- Enters a state. -/
def enter (s : CallState) (f : CallFrame σ) : CallFrame σ := { f with trace := f.trace ++ [s] }

/-- Makes a value the value so far. -/
def keep (v : Value) (f : CallFrame σ) : CallFrame σ := { f with value? := some v }

end CallFrame

/-- The callbacks around the calls of a method. -/
structure Chain (σ : Type) where
  site : MethodSite
  ignores : List (IgnoreCallback σ) := []
  preHooks : List (PreCallback σ) := []
  replacements : List (ReplaceCallback σ) := []
  postHooks : List (PostCallback σ) := []
  recoveries : List (RecoverCallback σ) := []

namespace Chain

variable {σ : Type}

/-- The chain with one more injection behind its others. -/
def add (c : Chain σ) : Injection σ → Except Error (Chain σ)
  | .ignoreMethod f => .ok { c with ignores := c.ignores ++ [f] }
  | .preHook f => .ok { c with preHooks := c.preHooks ++ [f] }
  | .replaceMethod f => .ok { c with replacements := c.replacements ++ [f] }
  | .postHook f => .ok { c with postHooks := c.postHooks ++ [f] }
  | .errorRecovery f => .ok { c with recoveries := c.recoveries ++ [f] }
  | .nothing .ofMethod => .ok c
  | i => .error (.incompatible (.chainInjection i.kind c.site.display))

/-- The chain of injections at a method. -/
def ofInjections (site : MethodSite) (injections : List (Injection σ)) :
    Except Error (Chain σ) :=
  injections.foldlM add { site }

/-- The number of callbacks. -/
def length (c : Chain σ) : Nat :=
  c.ignores.length + c.preHooks.length + c.replacements.length + c.postHooks.length +
    c.recoveries.length

/-- The chain has no callbacks. -/
def isEmpty (c : Chain σ) : Bool := c.length == 0

/-! ## The protocol -/

/-- Whether some ignore accepts the call; those behind it are not asked. -/
def ignored (site : MethodSite) (receiver : Value) : List (IgnoreCallback σ) → CallStep σ Bool
  | [] => return false
  | ignore :: rest => do
    if ← CallFrame.act (ignore receiver (← get).args site) then return true
    else ignored site receiver rest

/-- Changes the arguments by each pre-hook in turn. -/
def applyPreHooks (site : MethodSite) (receiver : Value) : List (PreCallback σ) → CallStep σ Unit
  | [] => return ()
  | hook :: rest => do
    let args ← CallFrame.act (hook receiver (← get).args site)
    modify fun f => { f with args }
    applyPreHooks site receiver rest

/-- What a callback can fall back on: the value so far, or the callee if there is none. -/
def fallback (callee : Invoker σ) (f : CallFrame σ) : Invoker σ :=
  match f.value? with
  | some v => .always v
  | none => callee

/-- Makes the value by each replacement in turn. -/
def applyReplacements (site : MethodSite) (receiver : Value) (callee : Invoker σ) :
    List (ReplaceCallback σ) → CallStep σ Unit
  | [] => return ()
  | replace :: rest => do
    let f ← get
    let v ← CallFrame.act (replace receiver f.args (fallback callee f) site)
    modify (CallFrame.keep v)
    applyReplacements site receiver callee rest

/-- Changes the value by each post-hook in turn. -/
def applyPostHooks (site : MethodSite) (receiver : Value) : List (PostCallback σ) → CallStep σ Unit
  | [] => return ()
  | hook :: rest => do
    let f ← get
    let v ← CallFrame.act (hook receiver f.args (f.value?.getD .void) site)
    modify (CallFrame.keep v)
    applyPostHooks site receiver rest

/-- Makes the value, by the replacements or else by the callee. -/
def makeValue (c : Chain σ) (receiver : Value) (callee : Invoker σ) : CallStep σ Unit := do
  if c.replacements.isEmpty then
    let v ← CallFrame.act (callee receiver (← get).args)
    modify (CallFrame.keep v)
    modify (CallFrame.enter .invoked)
  else
    applyReplacements c.site receiver callee c.replacements
    modify (CallFrame.enter .replaced)

/-- The call up to the first exception. -/
def attempt (c : Chain σ) (receiver : Value) (callee : Invoker σ) : CallStep σ Value := do
  if ← ignored c.site receiver c.ignores then
    modify (CallFrame.enter .ignored)
    return .ofType c.site.descriptor.ret
  else
    applyPreHooks c.site receiver c.preHooks
    modify (CallFrame.enter .preHooksApplied)
    c.makeValue receiver callee
    applyPostHooks c.site receiver c.postHooks
    modify (CallFrame.enter .postHooksApplied)
    return (← get).value?.getD .void

/-- Tries recoveries from an exception until one returns; `last` is what was raised last. -/
def tryRecoveries (site : MethodSite) (receiver : Value) (thrown : Thrown) (inner : Invoker σ) :
    List (RecoverCallback σ) → Thrown → StateM (CallFrame σ) Outcome
  | [], last => return .raised last
  | recover :: rest, _ => fun f =>
    match CallFrame.act (recover receiver f.args thrown inner site) f with
    | .ok v f => (.returned v, f)
    | .error t f => tryRecoveries site receiver thrown inner rest t f

/-- The call after an exception. -/
def recover (c : Chain σ) (receiver : Value) (callee : Invoker σ) (thrown : Thrown) :
    StateM (CallFrame σ) Outcome := do
  if c.recoveries.isEmpty then return .raised thrown
  else
    modify (CallFrame.enter .recovering)
    let inner := fallback callee (← get)
    tryRecoveries c.site receiver thrown inner c.recoveries thrown

/-- The whole call. -/
def run (c : Chain σ) (receiver : Value) (callee : Invoker σ) : StateM (CallFrame σ) Outcome :=
  fun f =>
    match c.attempt receiver callee (f.enter .start) with
    | .ok v f => (.returned v, f.enter .returned)
    | .error t f =>
      match c.recover receiver callee t (f.enter .failed) with
      | (.returned v, f) => (.returned v, f.enter .returned)
      | (.raised t, f) => (.raised t, f.enter .propagated)

/-- Makes a call; answers also the states that it went through. -/
def invokeTraced (c : Chain σ) (receiver : Value) (args : List Value) (callee : Invoker σ) :
    StateM σ (Outcome × List CallState) := fun world =>
  let (outcome, f) := c.run receiver callee { world, args }
  ((outcome, f.trace), f.world)

/-- Makes a call. -/
def invoke (c : Chain σ) (receiver : Value) (args : List Value) (callee : Invoker σ) :
    StateM σ Outcome := do
  return (← c.invokeTraced receiver args callee).1

/-- The chain as listings show it. -/
def text (c : Chain σ) : String :=
  Text.labelled "InterceptChain" [("site", Text.quote c.site.display),
    ("ignores", toString c.ignores.length), ("pre_hooks", toString c.preHooks.length),
    ("replacements", toString c.replacements.length), ("post_hooks", toString c.postHooks.length),
    ("recoveries", toString c.recoveries.length)]

end Chain

end Weft
