import Weft.Script.Injection
import Weft.Visitor.Composer
import Weft.Weave.Plan

/-!
# Plans in scripts

The helpers of a plan, and compositions that give the injections of each site themselves.
-/

namespace Weft.Script

open Weave

/-- A truth value at a place of a list, false if it is missing. -/
def flagAt (place : Nat) (items : List Doc) : Reading Bool :=
  match items[place]? with
  | some d => read d
  | none => return false

instance : Read HelperKind where
  read
    | .list (.text "call" :: name :: d :: flags) => do
      return .call (← read name) (← descriptorOf d) (← flagAt 0 flags)
    | .list (.text "field" :: name :: t :: flags) => do
      return .field (← read name) (← typeOf t) (← flagAt 0 flags) (← flagAt 1 flags)
    | .list (.text "method" :: name :: d :: flags) => do
      return .method (← read name) (← descriptorOf d) (← flagAt 0 flags)
    | _ => throw "helper"

/-- A site of a list, by what names it, with its injections. -/
def sitedOf {α β : Type} [Read α] (find : α → Option β) :
    Doc → Reading (β × List (Injection World))
  | .list [name, injections] => do
    match find (← read name) with
    | some site => return (site, ← injections.each (Injection World))
    | none => throw "site"
  | _ => throw "site"

/-- The injections that a record gives for a class and its members. -/
def compositionOf (s : ClassSite) (d : Doc) : Reading (Composition World) := do
  let fields ← (← d.eachOf Doc "fields").mapM (sitedOf s.field?)
  let methods ← (← d.eachOf Doc "methods").mapM
    (sitedOf fun m : String × String => s.method? m.1 m.2)
  return ⟨s, ← d.eachOf (Injection World) "class", fields, methods⟩

end Weft.Script
