import Std.Data.HashMap
import Weft.Call.Chain

/-!
# The registry of callbacks

Woven code names its callbacks by token. A registry gives each callback that is registered a token
of its own, which is made of the registry's number and a running number, and runs callbacks by
token.
-/

namespace Weft

/-- A registered callback. -/
inductive Callback (σ : Type) where
  | interception (chain : Chain σ)
  | addedMethod (code : MethodCode σ)
  | initializer (initializer : Initializer σ)

namespace Callback

variable {σ : Type}

/-- The kind of the callback. -/
def kind : Callback σ → CallbackKind
  | interception _ => .interception
  | addedMethod _ => .addedMethod
  | initializer _ => .initializer

/-- The callback as listings show it. -/
def text : Callback σ → String
  | interception chain => Text.applied "Intercept" [chain.text]
  | c => Text.applied c.kind.text [".."]

end Callback

/-- Callbacks by token. -/
structure Registry (σ : Type) where
  /-- Tells the registry's tokens from those of others. -/
  number : Nat
  /-- The running number of the next token. -/
  next : Nat := 0
  entries : Std.HashMap String (Callback σ) := ∅

namespace Registry

variable {σ : Type}

/-- The number of callbacks. -/
def size (r : Registry σ) : Nat := r.entries.size

/-- The registry has no callbacks. -/
def isEmpty (r : Registry σ) : Bool := r.entries.isEmpty

/-- The token with a running number in a registry. -/
def token (registry running : Nat) : String :=
  "cw" ++ toString registry ++ ":" ++ toString running

/-- Registers a callback under a new token. -/
def register (c : Callback σ) : StateM (Registry σ) String := modifyGet fun r =>
  let token := token r.number r.next
  (token, { r with next := r.next + 1, entries := r.entries.insert token c })

/-- The callback of a token. -/
def resolve (r : Registry σ) (token : String) : Except Error (Callback σ) :=
  match r.entries[token]? with
  | some c => .ok c
  | none => .error (.unresolved (.unknownToken token))

/-- A callback has the token. -/
def contains (r : Registry σ) (token : String) : Bool := r.entries.contains token

/-! ## Calls from woven code -/

/-- Makes a call through the chain of a token. -/
def intercept (r : Registry σ) (token : String) (receiver : Value) (args : List Value)
    (callee : Invoker σ) : Except Error (StateM σ Outcome) := do
  match ← r.resolve token with
  | .interception chain => return chain.invoke receiver args callee
  | c => throw (.unresolved (.mismatch token c.kind .interception))

/-- Runs the added method of a token. -/
def invokeAdded (r : Registry σ) (token : String) (receiver : Value) (args : List Value)
    (accessors : Accessors σ) : Except Error (StateM σ Outcome) := do
  match ← r.resolve token with
  | .addedMethod code => return (code receiver args accessors).outcome
  | c => throw (.unresolved (.mismatch token c.kind .addedMethod))

/-- Computes the first value of a field by the initializer of a token. -/
def initialValue (r : Registry σ) (token : String) (receiver : Value) :
    Except Error (StateM σ Outcome) := do
  match ← r.resolve token with
  | .initializer initializer => return (initializer receiver).outcome
  | c => throw (.unresolved (.mismatch token c.kind .initializer))

end Registry

end Weft
