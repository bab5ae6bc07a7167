import Weft.Weave.Emission
import Weft.Weave.Library
import Weft.Weave.Plan

/-!
# Wrappers of intercepted methods

The body of an intercepted method moves to a synthetic method of its class. In its place comes code
that hands the token, the receiver, the packed arguments and a helper for the moved body to the
bridge, and returns what the bridge answers.
-/

namespace Weft.Weave

/-- Puts the receiver on the stack, or null in a static method. -/
def loadReceiver (isStatic : Bool) : Build Unit :=
  if isStatic then Build.pushNull else Build.loadThis

/-- Makes a helper for the receiver and puts it on the stack. -/
def makeHelper (owner helper : ClassName) (isStatic : Bool) : Build Unit := do
  Build.newObject helper
  Build.dup
  if !isStatic then Build.loadThis
  Build.invokeSpecial helper "<init>" (helperDescriptor owner isStatic)

/-- Returns the object on the stack as a value of the type. -/
def returnObject (t : JType) : Build Unit := do
  if t.isVoid then Build.popValue .object else Build.unbox t
  Build.returnValue t

namespace PlannedIntercept

/-- The code in place of the body. -/
def wrapperCode (owner : ClassName) (i : PlannedIntercept) : Build Unit := do
  let d := i.site.descriptor
  let isStatic := i.site.isStatic
  Build.pushString i.token
  loadReceiver isStatic
  Build.packArguments d (firstSlot isStatic)
  makeHelper owner i.thunk isStatic
  Build.invokeStatic bridgeClass "intercept" interceptDescriptor
  returnObject d.ret

/-- The flags that a method loses when its body moves. -/
def movedClears : Access := .accPublic ∪ .accProtected ∪ .accPrivate ∪ .accVarargs ∪ .accBridge

/-- The method that the body moves to, of a method with that attribute as its code. -/
def movedMethod (i : PlannedIntercept) (m : Member) (code : Attribute) : Edit Pool Member := do
  let access := (m.access \ movedClears) ∪ .accSynthetic
  let moved ← Member.named access i.keptAs i.site.descriptor.descriptor
  return { moved with attributes := [code] }

/-- The method with the wrapper in place of its body. -/
def wrappedMethod (owner : ClassName) (i : PlannedIntercept) (m : Member) : Edit Pool Member := do
  let body ← Body.build (entrySlots i.site.descriptor i.site.isStatic) (i.wrapperCode owner)
  return { m with access := m.access \ .accSynchronized }.setCode (← body.toCode)

/-- Moves the body of the method and wraps it. -/
def weave (owner : ClassName) (i : PlannedIntercept) : Edit ClassFile Unit := do
  let index := i.site.index.toNat
  match (← get).methods[index]? with
  | none => throw (.malformed (.methodIndex index))
  | some m =>
    match m.attributes.find? (·.body.code?.isSome) with
    | none => throw (.malformed (.noCode i.site.display))
    | some code =>
      let moved ← editPool (i.movedMethod m code)
      let wrapped ← editPool (i.wrappedMethod owner m)
      modify fun c => { c with methods := c.methods.set index wrapped ++ [moved] }

end PlannedIntercept

end Weft.Weave
