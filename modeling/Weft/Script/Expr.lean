import Weft.Describe.Signature
import Weft.Injection.Basic
import Weft.Script.Value

/-!
# Expressions

Callbacks in scripts are expressions over what a callback is given: the receiver, the arguments, the
value or the exception, the code it stands in for, and the accessors of an added method. They act on
a world that keeps a log of the callbacks that ran and the fields that accessors reach.
-/

namespace Weft.Script

/-- The world that scripted callbacks act on. -/
structure World where
  /-- What was logged, the last entry first. -/
  log : List Doc := []
  /-- The fields that accessors reach, by name. -/
  cells : List (String × FieldCell) := []
  deriving Inhabited

namespace World

/-- Adds an entry to the log. -/
def note (entry : Doc) : StateM World Unit := modify fun w => { w with log := entry :: w.log }

/-- Takes the log out of the world, in order. -/
def takeLog : StateM World (List Doc) := modifyGet fun w => (w.log.reverse, { w with log := [] })

/-- Access to the field of that name. -/
def accessor (name : String) : FieldAccessor World :=
  FieldCell.accessor (fun w => (findByName? name w.cells).getD default)
    (fun cell w => { w with cells := insertByName name cell w.cells })

end World

/-- An expression. -/
inductive Expr where
  | value (v : Value)
  | arg (index : Nat)
  | argCount
  | args
  | receiver
  | current
  | message
  | thrown
  | site
  | add (a b : Expr)
  | mul (a b : Expr)
  | negative (a : Expr)
  | equal (a b : Expr)
  | throw (exception message : String)
  | rethrow
  | call
  | callWith (args : List Expr)
  | get (field : String)
  | set (field : String) (value : Expr)
  | invoke (method : String) (args : List Expr)
  | seq (steps : List Expr)

instance : Inhabited Expr := ⟨.value .void⟩

/-- What an expression can refer to. -/
structure Scope where
  receiver : Value := .null
  args : List Value := []
  value : Value := .void
  thrown? : Option Thrown := none
  site : String := ""
  invoker? : Option (Invoker World) := none
  accessors : Accessors World := {}

/-- The operand of arithmetic that a value stands for. -/
def operand (v : Value) : Int32 := v.toInt?.getD 0

/-- A part of the world that is missing. -/
def missing {α : Type} (what : String) : Action World α := throw (Thrown.runtime what)

mutual

/-- The value of an expression. -/
def Expr.eval (s : Scope) : Expr → Action World Value
  | .value v => return v
  | .arg i => return s.args.getD i .null
  | .argCount => return .int (Int32.ofNat s.args.length)
  | .args => return .array s.args
  | .receiver => return s.receiver
  | .current => return s.value
  | .message => return .str ((s.thrown?.map (·.message)).getD "")
  | .thrown => return .str ((s.thrown?.map (·.exception.internal)).getD "")
  | .site => return .str s.site
  | .add a b => do
    let x ← a.eval s
    return .int (operand x + operand (← b.eval s))
  | .mul a b => do
    let x ← a.eval s
    return .int (operand x * operand (← b.eval s))
  | .negative a => return .bool (operand (← a.eval s) < 0)
  | .equal a b => do
    let x ← a.eval s
    return .bool (x == (← b.eval s))
  | .throw exception text => MonadExcept.throw ⟨.ofText exception, text⟩
  | .rethrow => MonadExcept.throw (s.thrown?.getD (Thrown.runtime "none"))
  | .call =>
    match s.invoker? with
    | some invoker => invoker s.receiver s.args
    | none => missing "no invoker"
  | .callWith given => do
    let values ← Expr.evalAll s given
    match s.invoker? with
    | some invoker => invoker s.receiver values
    | none => missing "no invoker"
  | .get field => do
    match s.accessors.field? field with
    | some f => return f.get (← MonadState.get)
    | none => missing "no field"
  | .set field e => do
    match s.accessors.field? field with
    | some f =>
      modify (f.set (← e.eval s))
      return .void
    | none => missing "no field"
  | .invoke method given => do
    let values ← Expr.evalAll s given
    match s.accessors.method? method with
    | some m => m values
    | none => missing "no method"
  | .seq steps => return (← Expr.evalAll s steps).getLastD .void

/-- The values of expressions, in order. -/
def Expr.evalAll (s : Scope) : List Expr → Action World (List Value)
  | [] => return []
  | e :: es => do
    let v ← e.eval s
    return v :: (← Expr.evalAll s es)

end

mutual

/-- The expression that a document stands for. -/
def Expr.ofDoc : Doc → Reading Expr
  | .list (.text "arg" :: i :: _) => return .arg (← read i)
  | .list [.text "nargs"] => return .argCount
  | .list [.text "args"] => return .args
  | .list [.text "receiver"] => return .receiver
  | .list [.text "value"] => return .current
  | .list [.text "message"] => return .message
  | .list [.text "thrown"] => return .thrown
  | .list [.text "site"] => return .site
  | .list [.text "add", a, b] => return .add (← Expr.ofDoc a) (← Expr.ofDoc b)
  | .list [.text "mul", a, b] => return .mul (← Expr.ofDoc a) (← Expr.ofDoc b)
  | .list [.text "negative", a] => return .negative (← Expr.ofDoc a)
  | .list [.text "equal", a, b] => return .equal (← Expr.ofDoc a) (← Expr.ofDoc b)
  | .list [.text "throw", name, text] => return .throw (← read name) (← read text)
  | .list [.text "rethrow"] => return .rethrow
  | .list [.text "call"] => return .call
  | .list (.text "call_with" :: given) => return .callWith (← Expr.ofDocs given)
  | .list [.text "get", field] => return .get (← read field)
  | .list [.text "set", field, e] => return .set (← read field) (← Expr.ofDoc e)
  | .list (.text "invoke" :: method :: given) =>
    return .invoke (← read method) (← Expr.ofDocs given)
  | .list (.text "seq" :: steps) => return .seq (← Expr.ofDocs steps)
  | d => return .value (← read d)

/-- The expressions that documents stand for. -/
def Expr.ofDocs : List Doc → Reading (List Expr)
  | [] => return []
  | d :: ds => return (← Expr.ofDoc d) :: (← Expr.ofDocs ds)

end

instance : Read Expr := ⟨Expr.ofDoc⟩

/-- The code that an expression stands for, which logs its arguments. -/
def Expr.invoker (e : Expr) : Invoker World := fun receiver args => do
  World.note (.list [doc "original", doc args])
  e.eval { receiver, args }

end Weft.Script
