import Weft.Weave.Wrapper

/-!
# Added methods

The code of an added method makes two maps of accessors, one for fields and one for methods, and
hands them to the bridge with the token, the receiver and the packed arguments.
-/

namespace Weft.Weave

/-- Puts an accessor into the map in a slot under a name. -/
def putAccessor (owner : ClassName) (helpers : List Helper) (slot : UInt16)
    (accessor : String × ClassName) : Build Unit := do
  let (name, helper) := accessor
  Build.load mapType slot
  Build.pushString name
  makeHelper owner helper (isStaticHelper helpers helper)
  Build.invokeInterface mapClass "put" putDescriptor
  Build.popValue .object

/-- Makes a map of accessors in a slot. -/
def makeAccessors (owner : ClassName) (helpers : List Helper) (slot : UInt16)
    (accessors : List (String × ClassName)) : Build Unit := do
  Build.newObject hashMapClass
  Build.dup
  Build.invokeSpecial hashMapClass "<init>" plainDescriptor
  Build.store mapType slot
  accessors.forM (putAccessor owner helpers slot)

namespace PlannedMethod

/-- The code of the method. -/
def code (owner : ClassName) (helpers : List Helper) (m : PlannedMethod) : Build Unit := do
  let fields ← Build.allocateLocal mapType
  let methods ← Build.allocateLocal mapType
  makeAccessors owner helpers fields m.fields
  makeAccessors owner helpers methods m.methods
  Build.pushString m.token
  loadReceiver m.isStatic
  Build.packArguments m.descriptor (firstSlot m.isStatic)
  Build.load mapType fields
  Build.load mapType methods
  Build.invokeStatic bridgeClass "invokeAdded" invokeAddedDescriptor
  returnObject m.descriptor.ret

/-- The method as a member of the class. -/
def member (owner : ClassName) (helpers : List Helper) (m : PlannedMethod) : Edit Pool Member := do
  let built ← builtMethod m.access m.name m.descriptor (m.code owner helpers)
  if m.throws.isEmpty then return built
  let thrown ← m.throws.mapM
    (fun name => Pool.addClass name.internal : ClassName → Edit Pool UInt16)
  return { built with
    attributes := built.attributes ++ [← Attribute.named "Exceptions" (.exceptions thrown)] }

end PlannedMethod

end Weft.Weave
