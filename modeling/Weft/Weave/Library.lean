import Weft.Weave.Names

/-!
# The library of woven code

The descriptors of the methods that woven code calls and that helper classes implement. Calls reach
the callbacks through three static methods of the bridge; maps hand an added method its accessors.
-/

namespace Weft.Weave

/-- `java.util.Map`, from which an added method takes its accessors. -/
def mapClass : ClassName := ⟨"java/util/Map"⟩

/-- `java.util.HashMap`, the map that woven code makes. -/
def hashMapClass : ClassName := ⟨"java/util/HashMap"⟩

/-- The exception of a helper whose field cannot be set. -/
def unsupportedClass : ClassName := ⟨"java/lang/UnsupportedOperationException"⟩

/-- The type of maps. -/
def mapType : JType := .reference mapClass

/-- The type of packed arguments. -/
def objectsType : JType := JType.object.arrayOf 1

/-- Without parameters and without a value. -/
def plainDescriptor : MethodDescriptor := ⟨[], .void⟩

/-- From the token, the receiver, the arguments and the callee to the value of a call. -/
def interceptDescriptor : MethodDescriptor :=
  ⟨[.string, .object, objectsType, .reference methodAccessorClass], .object⟩

/-- From the token, the receiver, the arguments and the accessors to the value of the method. -/
def invokeAddedDescriptor : MethodDescriptor :=
  ⟨[.string, .object, objectsType, mapType, mapType], .object⟩

/-- From the token and the object to the first value of a field. -/
def initialValueDescriptor : MethodDescriptor := ⟨[.string, .object], .object⟩

/-- From the arguments to the value of a call. -/
def invokeDescriptor : MethodDescriptor := ⟨[objectsType], .object⟩

/-- To the value of a field. -/
def getDescriptor : MethodDescriptor := ⟨[], .object⟩

/-- From the value that a field gets. -/
def setDescriptor : MethodDescriptor := ⟨[.object], .void⟩

/-- To whether a field was set. -/
def isDirtyDescriptor : MethodDescriptor := ⟨[], .primitive .boolean⟩

/-- From a key and a value to the value that the map had. -/
def putDescriptor : MethodDescriptor := ⟨[.object, .object], .object⟩

/-- From the message of an exception. -/
def messageDescriptor : MethodDescriptor := ⟨[.string], .void⟩

/-- From the object that a helper works on; a helper of a static member has none. -/
def helperDescriptor (owner : ClassName) (isStatic : Bool) : MethodDescriptor :=
  if isStatic then plainDescriptor else ⟨[.reference owner], .void⟩

end Weft.Weave
