import Weft.ClassFile.Basic
import Weft.Code.Builder
import Weft.Code.Encode

/-!
# Emitting methods

A method is emitted by building its body. Its constants come into the pool in the order in which the
code uses them, behind its name and its descriptor.
-/

namespace Weft.Weave

/-- An edit of the pool of a class. -/
def editPool {α : Type} (edit : Edit Pool α) : Edit ClassFile α :=
  edit.zoom ClassFile.pool fun pool c => { c with pool }

/-- The slots of the parameters, and of the receiver before them. -/
def entrySlots (d : MethodDescriptor) (isStatic : Bool) : UInt16 :=
  d.paramSlots + if isStatic then 0 else 1

/-- The slot of the first parameter. -/
def firstSlot (isStatic : Bool) : UInt16 := if isStatic then 0 else 1

/-- A method with built code. -/
def builtMethod (access : Access) (name : String) (d : MethodDescriptor) (code : Build Unit) :
    Edit Pool Member := do
  let m ← Member.named access name d.descriptor
  let body ← Body.build (entrySlots d access.isStatic) code
  let code ← body.toCode
  return { m with attributes := [← Attribute.named "Code" (.code code)] }

/-- Appends fields. -/
def pushFields (fields : List Member) : Edit ClassFile Unit :=
  modify fun c => { c with fields := c.fields ++ fields }

/-- Appends a method that is made on the pool. -/
def pushMethod (edit : Edit Pool Member) : Edit ClassFile Unit := do
  let m ← editPool edit
  modify fun c => { c with methods := c.methods ++ [m] }

end Weft.Weave
