import Weft.Code.Decode
import Weft.Code.StackMap
import Weft.Weave.Emission
import Weft.Weave.Library
import Weft.Weave.Plan

/-!
# Initializers of added fields

A field whose value is computed comes with a holder, a constant that is the token of its callback.
Values that class files cannot give to fields are assigned by code: those of instance fields behind
the call of the superclass constructor in each constructor that makes one, those of static fields at
the start of the class initializer, which is added where the class has none.

Code is inserted in multiples of four bytes, so that switches keep their padding and the stack map
of the body needs only to be moved. Where it would need more, weaving fails.
-/

namespace Weft.Weave

namespace PlannedField

/-- Woven code gives the field its value. -/
def needsCode (f : PlannedField) : Bool := f.init.needsCode

/-- The flags of holders. -/
def holderAccess : Access := .accPrivate ∪ .accStatic ∪ .accFinal ∪ .accSynthetic

/-- The fields that the class gets for a planned field. -/
def members (f : PlannedField) : Edit Pool (List Member) := do
  let m ← Member.named f.access f.name f.type.descriptor
  match f.init with
  | .default | .store _ => return [m]
  | .constant value =>
    let index ← Pool.addLiteral value
    return [{ m with attributes := [← Attribute.named "ConstantValue" (.constantValue index)] }]
  | .callback token holder =>
    let h ← Member.named holderAccess holder JType.string.descriptor
    let index ← Pool.addString token
    return [{ h with attributes := [← Attribute.named "ConstantValue" (.constantValue index)] }, m]

/-- Stores the value on the stack in the field. -/
def put (owner : ClassName) (f : PlannedField) : Build Unit :=
  if f.isStatic then Build.putStatic owner f.name f.type else Build.putField owner f.name f.type

/-- Gives the field its first value. -/
def assign (owner : ClassName) (f : PlannedField) : Build Unit := do
  match f.init with
  | .default | .constant _ => return
  | .store value =>
    Build.loadThis
    Build.pushLiteral value
    f.put owner
  | .callback _ holder =>
    if !f.isStatic then Build.loadThis
    Build.getStatic owner holder .string
    if f.isStatic then Build.pushNull else Build.loadThis
    Build.invokeStatic bridgeClass "initialValue" initialValueDescriptor
    Build.unbox f.type
    f.put owner

end PlannedField

/-- Gives fields their first values, in their order. -/
def assignAll (owner : ClassName) (fields : List PlannedField) : Build Unit :=
  fields.forM (·.assign owner)

/-- The fields that code gives values to, static ones or others. -/
def pendingFields (isStatic : Bool) (fields : List PlannedField) : List PlannedField :=
  fields.filter fun f => f.isStatic == isStatic && f.needsCode

/-! ## Inserting code -/

/-- Code to be inserted, and its size in bytes. -/
structure Fragment where
  body : Body
  size : Nat

/-- The code that assigns fields, filled up to a multiple of four bytes. -/
def assignment (owner : ClassName) (fields : List PlannedField) (locals : UInt16) :
    Edit Pool Fragment := do
  let body ← Body.build locals (assignAll owner fields)
  let offsets ← body.offsets
  let size := offsets.getLast?.getD 0
  let padding := (4 - size % 4) % 4
  let code := body.code ++ List.replicate padding (.op { opcode := .nop })
  return ⟨{ body with code }, size + padding⟩

/-- The stack map of code, with the index of its name. -/
def stackMap? (p : Pool) (code : CodeAttribute) : Option (UInt16 × Bytes) :=
  code.attributes.findSome? fun a => match a.body with
    | .raw data =>
      if (p.utf8 a.name).toOption == some "StackMapTable" then some (a.name, data) else none
    | _ => none

/-- The offset of a position in a body that is laid out as it was. -/
def offsetBefore (code : CodeAttribute) (body : Body) (position : Nat) : Except Error Nat := do
  let offsets ← body.offsets
  if offsets.getLast? = some code.code.length then return offsets.getD position 0
  else throw (.notSupported .frameLayout)

/-- The code with a fragment at a position of its body. -/
def insertCode (code : CodeAttribute) (body : Body) (position : Nat) (f : Fragment) :
    Edit Pool CodeAttribute := do
  match stackMap? (← get) code with
  | none => (body.splice position f.body).toCode
  | some (name, data) =>
    let offset ← offsetBefore code body position
    let spliced ← (body.splice position f.body).toCode
    if spliced.code.length ≠ code.code.length + f.size then throw (.notSupported .branchLayout)
    let moved ← StackMap.shift offset f.size data
    return { spliced with attributes := spliced.attributes ++ [⟨name, .raw moved⟩] }

/-- The code with the assignment of fields at a position of its body. -/
def insertAssignment (owner : ClassName) (fields : List PlannedField) (code : CodeAttribute)
    (body : Body) (position : Nat) : Edit Pool CodeAttribute := do
  insertCode code body position (← assignment owner fields body.maxLocals)

/-! ## Constructors -/

/-- What a constructor does first. -/
inductive ConstructorStart where
  /-- It calls a constructor of the superclass; the position is the one behind the call. -/
  | callsSuper (position : Nat)
  /-- It calls another constructor of its class. -/
  | delegates
  deriving DecidableEq, Inhabited

/-- The name and the owner of the method that an instruction calls as a constructor would be. -/
def specialCall? (p : Pool) (i : Instruction) : Except Error (Option MemberRef) :=
  if i.opcode = .invokespecial then
    match i.constantIndex? with
    | some index => some <$> p.memberRef index
    | none => return none
  else return none

/-- What the code from a position on does first, while `pending` new objects wait for their
constructors. -/
def startFrom (p : Pool) (owner : ClassName) :
    List Item → Nat → Nat → Except Error (Option ConstructorStart)
  | [], _, _ => return none
  | .label _ :: rest, position, pending => startFrom p owner rest (position + 1) pending
  | .op i :: rest, position, pending => do
    if i.opcode = .newObject then startFrom p owner rest (position + 1) (pending + 1)
    else
      match ← specialCall? p i with
      | none => startFrom p owner rest (position + 1) pending
      | some m =>
        if m.name ≠ "<init>" then startFrom p owner rest (position + 1) pending
        else if pending > 0 then startFrom p owner rest (position + 1) (pending - 1)
        else if m.owner = owner then return some .delegates
        else return some (.callsSuper (position + 1))

/-- What a constructor of the class does first. -/
def constructorStart (p : Pool) (owner : ClassName) (b : Body) :
    Except Error (Option ConstructorStart) :=
  startFrom p owner b.code 0 0

/-- The method, in which fields are assigned if it is a constructor that does not delegate. -/
def initializeIn (owner : ClassName) (fields : List PlannedField) (m : Member) :
    Edit Pool Member := do
  let p ← get
  if (← p.utf8 m.name) ≠ "<init>" then return m
  match m.code? with
  | none => return m
  | some code =>
    let body ← Body.ofCode code p
    match ← constructorStart p owner body with
    | some .delegates => return m
    | some (.callsSuper position) =>
      return m.setCode (← insertAssignment owner fields code body position)
    | none => throw (.notSupported (.noSuperCall (← p.utf8 m.descriptor) owner))

/-! ## The class -/

/-- Declares planned fields. -/
def declareFields (fields : List PlannedField) : Edit ClassFile Unit := do
  fields.forM fun f => do pushFields (← editPool f.members)

/-- Assigns instance fields in the constructors. -/
def initializeInstances (owner : ClassName) (fields : List PlannedField) :
    Edit ClassFile Unit := do
  let pending := pendingFields false fields
  if pending.isEmpty then return
  let methods ← editPool ((← get).methods.mapM (initializeIn owner pending))
  modify fun c => { c with methods }

/-- Assigns static fields in the class initializer. -/
def initializeStatics (owner : ClassName) (fields : List PlannedField) :
    Edit ClassFile Unit := do
  let pending := pendingFields true fields
  if pending.isEmpty then return
  let c ← get
  let isInitializer (m : Member) := m.isNamed c.pool "<clinit>" plainDescriptor.descriptor
  match c.methods.find? isInitializer with
  | none =>
    pushMethod <| builtMethod (.accStatic ∪ .accSynthetic) "<clinit>" plainDescriptor do
      assignAll owner pending
      Build.returnValue .void
  | some m =>
    match m.code? with
    | none => throw (.malformed (.noInitializerCode owner))
    | some code =>
      let body ← Body.ofCode code c.pool
      let code ← editPool (insertAssignment owner pending code body 0)
      modify fun c => { c with methods := updateFirst isInitializer (·.setCode code) c.methods }

end Weft.Weave
