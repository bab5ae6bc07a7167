import Weft.Script.Expr
import Weft.Signature.Descriptor
import Weft.Signature.TypeName
import Weft.Visitor.Basic

/-!
# Injections and visitors in scripts

A scripted injection is a record of its kind and what the kind needs; its callbacks are expressions
and log, under the injection's label, what they are called with. A scripted visitor answers with the
injection of the first of its rules that fits the site, and logs each visit.
-/

namespace Weft.Script

/-- A field of a record as an expression, `void` if it is missing. -/
def exprOf (key : String) (d : Doc) : Reading Expr := d.fieldD key default

/-- The type that a document names in any spelling. -/
def typeOf (d : Doc) : Reading JType := do
  match JType.ofName (← read d) with
  | .ok t => return t
  | .error e => throw e.text

/-- The descriptor of a method that a document holds. -/
def descriptorOf (d : Doc) : Reading MethodDescriptor := do
  match MethodDescriptor.ofText (← read d) with
  | .ok t => return t
  | .error e => throw e.text

/-- The target of that name. -/
def targetOf : String → Reading Target
  | "class" => return .ofClass
  | "field" => return .ofField
  | "method" => return .ofMethod
  | _ => throw "target"

/-- The first value of the field that a record declares. -/
def initialOf (label : String) (d : Doc) : Reading (InitialValue World) := do
  match ← d.field? Literal "constant", ← d.field? Expr "computed" with
  | _, some e => return .computed fun receiver => do
      World.note (.list [doc label, doc receiver])
      e.eval { receiver }
  | some v, none => return .constant v
  | none, none => return .none

/-- The field that a record declares. -/
def fieldOf (label : String) (d : Doc) : Reading (FieldDeclaration World) := do
  return ⟨⟨← d.field UInt16 "access"⟩, ← d.field String "name", ← typeOf (← d.get "type"),
    ← initialOf label d⟩

instance : Read MethodReference where
  read
    | .list [name, descriptor] => return ⟨← read name, ← descriptorOf descriptor⟩
    | _ => throw "method"

/-- The method that a record declares. -/
def methodOf (label : String) (d : Doc) : Reading (MethodDeclaration World) := do
  let body ← exprOf "body" d
  return {
    access := ⟨← d.field UInt16 "access"⟩
    name := ← d.field String "name"
    descriptor := ← descriptorOf (← d.get "descriptor")
    throws := (← d.eachOf String "throws").map ClassName.ofText
    fields := ← d.eachOf String "fields"
    methods := ← d.eachOf MethodReference "methods"
    code := fun receiver args accessors => do
      World.note (.list [doc label, doc args])
      body.eval { receiver, args, accessors } }

/-- The injection that a record stands for. -/
def injectionOf (d : Doc) : Reading (Injection World) := do
  let kind ← d.field String "kind"
  let label ← d.fieldD "label" kind
  match kind with
  | "AddField" => return .addField (← fieldOf label d)
  | "AddMethod" => return .addMethod (← methodOf label d)
  | "IgnoreMethod" =>
    let accepts ← exprOf "when" d
    return .ignoreMethod fun receiver args site => do
      World.note (.list [doc label, doc args])
      return (← accepts.eval { receiver, args, site := site.display }).toBool?.getD false
  | "PreHook" =>
    let results ← d.each? Expr "args"
    return .preHook fun receiver args site => do
      World.note (.list [doc label, doc args])
      match results with
      | some es => Expr.evalAll { receiver, args, site := site.display } es
      | none => return args
  | "PostHook" =>
    let result ← exprOf "result" d
    return .postHook fun receiver args value site => do
      World.note (.list [doc label, doc args, doc value])
      result.eval { receiver, args, value, site := site.display }
  | "ReplaceMethod" =>
    let result ← exprOf "result" d
    return .replaceMethod fun receiver args invoker site => do
      World.note (.list [doc label, doc args])
      result.eval { receiver, args, invoker? := some invoker, site := site.display }
  | "ErrorRecovery" =>
    let result ← exprOf "result" d
    return .errorRecovery fun receiver args thrown invoker site => do
      World.note (.list [doc label, doc args, doc (toString thrown)])
      result.eval { receiver, args, thrown? := some thrown, invoker? := some invoker,
                    site := site.display }
  | "None" => return .nothing (← targetOf (← d.field String "target"))
  | _ => throw kind

instance : Read (Injection World) := ⟨injectionOf⟩

/-- A rule of a visitor: the name and the descriptor that it asks for, and its injection. -/
structure Rule where
  name? : Option String
  descriptor? : Option String
  injection : Injection World

/-- The rule fits a site. -/
def Rule.fits (r : Rule) (s : Site) : Bool :=
  r.name?.all (· == s.name) && r.descriptor?.all (· == s.descriptor)

instance : Read Rule where
  read
    | .list [name, descriptor, injection] => do
      let name : String ← read name
      let descriptor? ← match descriptor with
        | .null => pure none
        | d => some <$> read d
      return ⟨if name = "*" then none else some name, descriptor?, ← read injection⟩
    | _ => throw "rule"

/-- The rules of a visitor for each target that it handles. -/
abbrev Rules := Target → Option (List Rule)

/-- The visitor with those rules. -/
def Rules.visitor (name : String) (rules : Rules) : Visitor World where
  name
  handles t := (rules t).isSome
  visit site := do
    World.note (.list [.text "visit", doc name, doc site.display])
    return (((rules site.target).getD []).find? (·.fits site)).map (·.injection)

instance : Read (Visitor World) where
  read d := do
    let onClass ← d.each? Rule "class"
    let onField ← d.each? Rule "field"
    let onMethod ← d.each? Rule "method"
    return Rules.visitor (← d.field String "name") fun
      | .ofClass => onClass
      | .ofField => onField
      | .ofMethod => onMethod

end Weft.Script
