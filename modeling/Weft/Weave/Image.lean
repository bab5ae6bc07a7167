import Weft.Weave.AddedMethod
import Weft.Weave.HelperClass
import Weft.Weave.Initializer

/-!
# Woven images

A plan is applied to the class that it was made for. The methods and constants of the class keep
their places; what is added comes behind them.
-/

namespace Weft.Weave

/-- The image of a woven class and those of its helpers. -/
structure WovenImages where
  primary : Bytes
  helpers : List (ClassName × Bytes)
  deriving DecidableEq, Inhabited

/-- Adds members to the first list of nest members, or to a new one. -/
def addNestMembers (members : List UInt16) (c : ClassFile) : ClassFile :=
  let extend? : Attribute → Option Attribute
    | ⟨name, .nestMembers old⟩ => some ⟨name, .nestMembers (old ++ members)⟩
    | _ => none
  if c.attributes.any fun a => (extend? a).isSome then
    { c with attributes :=
        updateFirst (fun a => (extend? a).isSome) (fun a => (extend? a).getD a) c.attributes }
  else c.addAttribute "NestMembers" (.nestMembers members)

namespace Plan

/-- The helpers join the nest of the class. -/
def nests (p : Plan) (c : ClassFile) : Bool := !p.helpers.isEmpty && hostsNest p.options c

/-- Lists the helpers as members of the nest. -/
def nestHelpers (p : Plan) : Edit ClassFile Unit := do
  if p.nests (← get) then
    let members ← p.helpers.mapM fun (h : Helper) =>
      (ClassFile.onPool (Pool.addClass h.name.internal) : Edit ClassFile UInt16)
    modify (addNestMembers members)

/-- Marks the class with the name of the injector. -/
def stampClass (p : Plan) : Edit ClassFile Unit := do
  match p.options.stamp with
  | none => return
  | some name =>
    let injector ← (ClassFile.onPool (Pool.addUtf8 name) : Edit ClassFile UInt16)
    modify (·.setAttribute "classweave.Woven" (.woven ⟨injector, !p.isEmpty⟩))

/-- Makes the changes of the plan to its class. -/
def weave (p : Plan) (owner : ClassName) : Edit ClassFile Unit := do
  p.intercepts.forM (·.weave owner)
  declareFields p.fields
  initializeInstances owner p.fields
  initializeStatics owner p.fields
  p.methods.forM fun m => pushMethod (m.member owner p.helpers)
  p.nestHelpers
  p.stampClass

/-- The images that the plan makes of a class, which has to be the one that it was made for. -/
def apply (p : Plan) (s : ClassSite) : Except Error WovenImages := do
  if s.artifact ≠ p.site.artifact then
    throw (.incompatible (.otherImage p.site.name s.name))
  let ((), c) ← (p.weave s.name).run s.classFile
  let primary ← c.toBytes
  let helpers ← p.helpers.mapM fun h => do
    let helper ← h.classFile s.name c.majorVersion (p.nests s.classFile)
    return (h.name, ← helper.toBytes)
  return ⟨primary, helpers⟩

end Plan

end Weft.Weave
