import Weft.Call.Registry
import Weft.Script.Injection

/-!
# Calls in scripts

A scripted call gives a receiver, arguments, and an expression for the code that is called.
-/

namespace Weft.Script

/-- A call in a script. -/
structure Call where
  receiver : Value := .null
  args : List Value := []
  callee : Invoker World

instance : Read Call where
  read d := do
    let callee ← d.fieldD "original" (Expr.value .null)
    return ⟨← d.fieldD "receiver" .null, ← d.eachOf Value "args", callee.invoker⟩

namespace Call

/-- Makes the call through a chain, and once more without its log; answers what it showed. -/
def through (c : Call) (chain : Chain World) : StateM World Doc := do
  let (outcome, trace) ← chain.invokeTraced c.receiver c.args c.callee
  let log ← World.takeLog
  let again ← chain.invoke c.receiver c.args c.callee
  let _ ← World.takeLog
  return .record [("outcome", doc outcome), ("log", doc log),
    ("trace", doc (trace.map CallState.word)), ("again", doc (again == outcome))]

end Call

/-- The fields of a record by name. -/
def namedOf (α : Type) [Read α] (key : String) (d : Doc) : Reading (List (String × α)) := do
  match d.get? key with
  | some (.record fields) => fields.mapM fun (name, d) => do return (name, ← read d)
  | _ => return []

/-- Runs an added method on fields and methods that a record gives; answers what became of them. -/
def invokeAdded (r : Registry World) (token : String) (d : Doc) :
    Reading (Except Error (StateM World Doc)) := do
  let cells ← namedOf Value "fields" d
  let methods ← namedOf Expr "methods" d
  let call : Call ← read d
  let fields := cells.foldl (fun a c => a.withField c.1 (World.accessor c.1)) {}
  let accessors := methods.foldl (fun a m => a.withMethod m.1 fun args => m.2.eval { args }) fields
  return do
    let run ← r.invokeAdded token call.receiver call.args accessors
    return do
      modify fun w => { w with cells := cells.map fun c => (c.1, ⟨c.2, false⟩) }
      let outcome ← run
      let w ← get
      return .record [("outcome", doc outcome), ("dirty", doc (accessors.dirtyFields w)),
        ("fields", .list (accessors.fields.map fun (name, f) =>
          .list [doc name, doc (f.get w), doc (f.isDirty w)])),
        ("debug", doc accessors.text)]

/-- A call from woven code, by its kind, its token and a record of the rest. -/
def bridgeCall (r : Registry World) (kind token : String) (d : Doc) :
    Reading (Except Error (StateM World Doc)) := do
  let call : Call ← read d
  match kind with
  | "intercept" =>
    return (doc <$> ·) <$> r.intercept token call.receiver call.args call.callee
  | "invoke_added" => invokeAdded r token d
  | "initial" => return (doc <$> ·) <$> r.initialValue token call.receiver
  | _ => throw kind

/-- The callback that registering an injection at a method registers. -/
def callbackOf (site : MethodSite) : Injection World → Except Error (Callback World)
  | .addMethod m => .ok (.addedMethod m.code)
  | .addField ⟨_, _, _, .computed f⟩ => .ok (.initializer f)
  | i => do return .interception (← Chain.ofInjections site [i])

end Weft.Script
