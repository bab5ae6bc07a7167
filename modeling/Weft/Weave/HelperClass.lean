import Weft.Weave.Emission
import Weft.Weave.Library
import Weft.Weave.Plan

/-!
# Helper classes

A helper class gives callbacks access to one member of its owner. It implements the accessor
interface of the library and holds the object that it works on, unless the member is static. A
helper of a field also remembers whether the field was set through it.
-/

namespace Weft.Weave

namespace Helper

/-- The interface that the helper implements. -/
def accessorClass (h : Helper) : ClassName :=
  match h.kind with
  | .field .. => fieldAccessorClass
  | .call .. | .method .. => methodAccessorClass

/-- Puts the object that the helper works on on the stack, unless the member is static. -/
def loadTarget (owner : ClassName) (h : Helper) : Build Unit := do
  if !h.kind.isStatic then
    Build.loadThis
    Build.getField h.name targetField (.reference owner)

/-- The constructor of the helper. -/
def constructorCode (owner : ClassName) (h : Helper) : Build Unit := do
  Build.loadThis
  Build.invokeSpecial .object "<init>" plainDescriptor
  if !h.kind.isStatic then
    Build.loadThis
    Build.load (.reference owner) 1
    Build.putField h.name targetField (.reference owner)
  Build.returnValue .void

/-- Calls the member with the arguments in an array. -/
def invokeCode (owner : ClassName) (h : Helper) (method : String) (d : MethodDescriptor) :
    Build Unit := do
  h.loadTarget owner
  Build.unpackArguments d 1
  if h.kind.isStatic then Build.invokeStatic owner method d
  else Build.invokeVirtual owner method d
  if d.ret.isVoid then Build.pushNull else Build.box d.ret
  Build.returnValue .object

/-- Answers the value of the field. -/
def getCode (owner : ClassName) (h : Helper) (field : String) (t : JType) : Build Unit := do
  h.loadTarget owner
  if h.kind.isStatic then Build.getStatic owner field t else Build.getField owner field t
  Build.box t
  Build.returnValue .object

/-- Refuses to set a final field. -/
def refuseCode (owner : ClassName) (field : String) : Build Unit := do
  Build.newObject unsupportedClass
  Build.dup
  Build.pushString (owner.binary ++ "." ++ field ++ " is final")
  Build.invokeSpecial unsupportedClass "<init>" messageDescriptor
  Build.throwTop

/-- Sets the field and remembers so. -/
def setCode (owner : ClassName) (h : Helper) (field : String) (t : JType) : Build Unit := do
  h.loadTarget owner
  Build.load .object 1
  Build.unbox t
  if h.kind.isStatic then Build.putStatic owner field t else Build.putField owner field t
  Build.loadThis
  Build.pushInt 1
  Build.putField h.name dirtyField (.primitive .boolean)
  Build.returnValue .void

/-- Answers whether the field was set. -/
def isDirtyCode (h : Helper) : Build Unit := do
  Build.loadThis
  Build.getField h.name dirtyField (.primitive .boolean)
  Build.returnValue (.primitive .boolean)

/-- Appends the members that give access to a field. -/
def pushFieldAccess (owner : ClassName) (h : Helper) (field : String) (t : JType)
    (isFinal : Bool) : Edit ClassFile Unit := do
  pushFields [← editPool (Member.named (.accPrivate ∪ .accSynthetic) dirtyField "Z")]
  pushMethod (builtMethod .accPublic "get" getDescriptor (h.getCode owner field t))
  pushMethod (builtMethod .accPublic "set" setDescriptor
    (if isFinal then refuseCode owner field else h.setCode owner field t))
  pushMethod (builtMethod .accPublic "isDirty" isDirtyDescriptor h.isDirtyCode)

/-- Appends the members of the helper. -/
def pushMembers (owner : ClassName) (h : Helper) : Edit ClassFile Unit := do
  if !h.kind.isStatic then
    let target := Member.named (.accPrivate ∪ .accFinal ∪ .accSynthetic) targetField
      (JType.reference owner).descriptor
    pushFields [← editPool target]
  pushMethod (builtMethod ⟨0⟩ "<init>" (helperDescriptor owner h.kind.isStatic)
    (h.constructorCode owner))
  match h.kind with
  | .field name t _ isFinal => h.pushFieldAccess owner name t isFinal
  | .call name d _ | .method name d _ =>
    pushMethod (builtMethod .accPublic "invoke" invokeDescriptor (h.invokeCode owner name d))

/-- The class file of the helper, in the nest of its owner or not. -/
def classFile (owner : ClassName) (h : Helper) (majorVersion : UInt16) (nested : Bool) :
    Except Error ClassFile := do
  let bare := ClassFile.make h.name.internal (some ClassName.object.internal)
    (.accFinal ∪ .accSuper ∪ .accSynthetic) majorVersion
  let (_, c) := ClassFile.addInterface h.accessorClass.internal bare
  let ((), c) ← (h.pushMembers owner).run c
  if nested then
    let (host, c) := ClassFile.onPool (Pool.addClass owner.internal) c
    return c.addAttribute "NestHost" (.nestHost host)
  else return c

end Helper

end Weft.Weave
