import Weft.ClassFile.Pool
import Weft.Code.Body
import Weft.Proofs.Machine.Values
import Weft.Signature.Descriptor

/-!
# A machine for straight code

The machine runs code that does not jump, on a stack of words, local slots and a heap. Pool entries
are resolved to actions. Boxing and unboxing are built in, and so is the constructor of plain
objects; constructors of loaded classes run in a frame of their own. All other calls are handed to
the environment and are recorded with the heap as it was.

Code that takes what is not there, or what is of another kind, gets stuck; so does code that needs
more of the stack than its body has declared.
-/

namespace Weft.Machine

/-! ## States -/

/-- A field, as code names it. -/
structure FieldKey where
  owner : String
  name : String
  descriptor : String
  deriving DecidableEq

/-- The kind of words that the field holds. -/
def FieldKey.kind (f : FieldKey) : WordKind :=
  match f.descriptor.toList.head? with
  | some 'J' => .long
  | some 'F' => .float
  | some 'D' => .double
  | some 'L' | some '[' => .reference
  | _ => .int

/-- What stands at an address of the heap. -/
inductive Cell where
  | array (element : String) (items : List Ref)
  | object (className : String) (fields : List (FieldKey × Word))
  deriving Inhabited

/-- A method, as code names it. -/
structure Method where
  owner : String
  name : String
  descriptor : MethodDescriptor
  deriving DecidableEq

/-- A call that was handed to the environment. -/
structure Call where
  method : Method
  arguments : List Word
  /-- The heap before the call. -/
  heap : List Cell

/-- What all frames share. -/
structure Shared (σ : Type) where
  heap : List Cell
  /-- The state of everything else. -/
  world : σ
  calls : List Call

/-- The state of a frame. A local slot holds nothing behind a word of two slots. -/
structure State (σ : Type) where
  stack : List Word
  locals : List (Option Word)
  shared : Shared σ

/-- What the machine or a callee throws. -/
inductive Fault where
  | nullPointer | classCast | arrayIndex | arrayStore | negativeSize
  | raised (exception : Ref)
  deriving DecidableEq

/-- How code ends. -/
inductive Exit where
  | returned (value : Option Word)
  | thrown (t : Fault)
  | stuck
  deriving DecidableEq

/-- A constructor of a loaded class. -/
structure Constructor where
  params : List JType
  body : Body
  pool : Pool

/-- What code runs in. A call may do anything to the heap and to the rest of the world, but answers
a value of its type or raises an exception. -/
structure Env (σ : Type) where
  /-- The reference can stand for an object of the class, null for one of any class. -/
  isInstance : List Cell → Ref → String → Bool
  /-- The constructors of loaded classes, by class and descriptor. -/
  constructors : String → String → Option Constructor
  call : Method → List Word → List Cell → σ → Except Ref (Option Word) × List Cell × σ
  constructors_object : constructors ClassName.object.internal "()V" = none
  isInstance_object : ∀ heap r, isInstance heap r ClassName.object.internal = true
  isInstance_boxed : ∀ heap r (p : Primitive),
    isInstance heap r p.boxed.internal = true ↔ r = .null ∨ ∃ b : Box, b.type = p ∧ r = .box b
  call_answers : ∀ m args heap world w, (call m args heap world).1 = .ok w →
    m.descriptor.ret.Answers w

/-! ## Actions -/

/-- What an instruction does, its constant resolved. -/
inductive Act where
  | push (w : Word)
  | load (kind : WordKind) (slot : Nat)
  | dup
  | pop
  | make (className : String)
  | makeArray (element : String)
  | storeItem
  | loadItem
  | cast (className : String)
  | getField (f : FieldKey)
  | putField (f : FieldKey)
  | box (p : Primitive)
  | unbox (p : Primitive)
  | construct (c : Constructor)
  | invoke (isStatic : Bool) (m : Method)
  | leave (kind? : Option WordKind)

section Resolution

variable {σ : Type} (env : Env σ) (p : Pool)

/-- The class at an index, as it is written there. -/
def classAt? (index : UInt16) : Option String :=
  match p.get index with
  | .ok (.classRef name) => (p.utf8 name).toOption
  | _ => none

/-- The owner, the name and the descriptor at the indices of a member. -/
def memberAt? (owner nat : UInt16) : Option (String × String × String) := do
  let owner ← classAt? p owner
  let .ok (.nameAndType name descriptor) := p.get nat | none
  return (owner, ← (p.utf8 name).toOption, ← (p.utf8 descriptor).toOption)

/-- The action of an instruction without an operand. -/
def plainAction? (op : Opcode) : Option Act :=
  if op = .aconstNull then some (.push (.ref .null))
  else if 2 ≤ op.byte ∧ op.byte ≤ 8 then
    some (.push (.number (.int (Int32.ofInt (op.byte.toNat - 3)))))
  else if op = .aload0 then some (.load .reference 0)
  else if op = .dup then some .dup
  else if op = .pop then some .pop
  else if op = .aastore then some .storeItem
  else if op = .aaload then some .loadItem
  else if op = .ireturn then some (.leave (some .int))
  else if op = .lreturn then some (.leave (some .long))
  else if op = .freturn then some (.leave (some .float))
  else if op = .dreturn then some (.leave (some .double))
  else if op = .areturn then some (.leave (some .reference))
  else if op = .voidReturn then some (.leave none)
  else none

/-- The action of an instruction that loads a slot. -/
def loadAction? (op : Opcode) (slot : Nat) : Option Act :=
  if op = .iload then some (.load .int slot)
  else if op = .lload then some (.load .long slot)
  else if op = .fload then some (.load .float slot)
  else if op = .dload then some (.load .double slot)
  else if op = .aload then some (.load .reference slot)
  else none

/-- The word that a constant stands for. -/
def constantWord? : Constant → Option Word
  | .integer v => some (.number (.int v))
  | .string text => (p.utf8 text).toOption.map fun t => .ref (.text t)
  | _ => none

/-- The primitive type whose values the method puts into boxes. -/
def boxing? (m : Method) : Option Primitive :=
  Primitive.all.find? fun p =>
    m = ⟨p.boxed.internal, "valueOf", ⟨[.primitive p], .reference p.boxed⟩⟩

/-- The primitive type whose values the method takes out of boxes. -/
def unboxing? (m : Method) : Option Primitive :=
  Primitive.all.find? fun p => m = ⟨p.boxed.internal, p.unboxMethod, ⟨[], .primitive p⟩⟩

/-- The action of a call of a method of a class. -/
def callAction? (op : Opcode) (owner name descriptor : String) : Option Act :=
  if op = .invokespecial then
    if name ≠ "<init>" then none
    else
      match env.constructors owner descriptor with
      | some c => some (.construct c)
      -- the constructor of plain objects only takes the object off the stack
      | none => if owner = ClassName.object.internal ∧ descriptor = "()V" then some .pop else none
  else
    match MethodDescriptor.ofText descriptor with
    | .error _ => none
    | .ok d =>
      let m : Method := ⟨owner, name, d⟩
      if op = .invokestatic then
        match boxing? m with
        | some p => some (.box p)
        | none => some (.invoke true m)
      else if op = .invokevirtual then
        match unboxing? m with
        | some p => some (.unbox p)
        | none => some (.invoke false m)
      else none

/-- The action of an instruction with a constant. -/
def constantAction? (op : Opcode) (index : UInt16) : Option Act :=
  match p.get index with
  | .error _ => none
  | .ok (.classRef _) => do
    let name ← classAt? p index
    if op = .newObject then some (.make name)
    else if op = .anewarray then some (.makeArray name)
    else if op = .checkcast then some (.cast name)
    else none
  | .ok (.fieldRef owner nat) => do
    let (owner, name, descriptor) ← memberAt? p owner nat
    if op = .getfield then some (.getField ⟨owner, name, descriptor⟩)
    else if op = .putfield then some (.putField ⟨owner, name, descriptor⟩)
    else none
  | .ok (.methodRef owner nat) => do
    let (owner, name, descriptor) ← memberAt? p owner nat
    callAction? env op owner name descriptor
  | .ok c => if op = .ldc then (constantWord? p c).map .push else none

/-- What the instruction does. -/
def Env.resolve (i : Instruction) : Option Act :=
  match i.operand with
  | .none => plainAction? i.opcode
  | .byte v => if i.opcode = .bipush then some (.push (.number (.int v.toInt32))) else none
  | .short v => if i.opcode = .sipush then some (.push (.number (.int v.toInt32))) else none
  | .local slot => loadAction? i.opcode slot.toNat
  | .constant index => constantAction? env p i.opcode index
  | _ => none

end Resolution

/-! ## Performing actions -/

/-- A step of a frame. -/
abbrev Run (σ : Type) := EStateM Exit (State σ)

/-- How a constructor runs on an object and arguments. -/
abbrev Enter (σ : Type) := Constructor → List Word → Shared σ → Exit × Shared σ

section Steps

variable {σ : Type}

/-- Puts a word on the stack. -/
def push (w : Word) : Run σ Unit := fun m => .ok () { m with stack := w :: m.stack }

/-- Takes a word of the kind off the stack. -/
def popWord (kind : WordKind) : Run σ Word := fun m =>
  match m.stack with
  | w :: rest => if w.kind = kind then .ok w { m with stack := rest } else .error .stuck m
  | [] => .error .stuck m

/-- Takes a reference off the stack. -/
def popRef : Run σ Ref := fun m =>
  match m.stack with
  | .ref r :: rest => .ok r { m with stack := rest }
  | _ => .error .stuck m

/-- Takes a number of kind `int` off the stack. -/
def popInt : Run σ Int32 := fun m =>
  match m.stack with
  | .number (.int v) :: rest => .ok v { m with stack := rest }
  | _ => .error .stuck m

/-- Takes a word of one slot off the stack. -/
def popSingle : Run σ Word := fun m =>
  match m.stack with
  | w :: rest => if w.slots = 1 then .ok w { m with stack := rest } else .error .stuck m
  | [] => .error .stuck m

/-- Takes arguments of the types off the stack, the last of them on the top. -/
def popArguments (params : List JType) : Run σ (List Word) := fun m =>
  let args := (m.stack.take params.length).reverse
  if args.map (some ·.kind) = params.map JType.kind? then
    .ok args { m with stack := m.stack.drop params.length }
  else .error .stuck m

/-- What stands at a reference, with its address. -/
def cellAt (r : Ref) : Run σ (Nat × Cell) := fun m =>
  match r with
  | .null => .error (.thrown .nullPointer) m
  | .object a =>
    match m.shared.heap[a]? with
    | some c => .ok (a, c) m
    | none => .error .stuck m
  | _ => .error .stuck m

/-- The array at a reference. -/
def arrayAt (r : Ref) : Run σ (Nat × String × List Ref) := do
  match ← cellAt r with
  | (a, .array element items) => return (a, element, items)
  | _ => throw .stuck

/-- The object at a reference. -/
def objectAt (r : Ref) : Run σ (Nat × String × List (FieldKey × Word)) := do
  match ← cellAt r with
  | (a, .object className fields) => return (a, className, fields)
  | _ => throw .stuck

/-- Sets what stands at an address. -/
def setCell (a : Nat) (c : Cell) : Run σ Unit := fun m =>
  .ok () { m with shared := { m.shared with heap := m.shared.heap.set a c } }

/-- Puts something at an address of its own, and a reference to it on the stack. -/
def allocate (c : Cell) : Run σ Unit := fun m =>
  .ok () { m with
    stack := .ref (.object m.shared.heap.length) :: m.stack
    shared := { m.shared with heap := m.shared.heap ++ [c] } }

/-- The index as one of a list of that length. -/
def checkIndex (v : Int32) (length : Nat) : Run σ Nat :=
  if 0 ≤ v.toInt ∧ v.toInt < length then return v.toInt.toNat else throw (.thrown .arrayIndex)

/-- Goes on if the condition holds. -/
def require (c : Bool) (e : Exit) : Run σ Unit := if c then return else throw e

/-- The reference can stand for an object of the class. -/
def isInstance (env : Env σ) (r : Ref) (className : String) : Run σ Bool := fun m =>
  .ok (env.isInstance m.shared.heap r className) m

/-- Hands a call to the environment. -/
def Env.invoke (env : Env σ) (m : Method) (args : List Word) (s : Shared σ) :
    Except Ref (Option Word) × Shared σ :=
  let (answer, heap, world) := env.call m args s.heap s.world
  (answer, ⟨heap, world, s.calls ++ [⟨m, args, s.heap⟩]⟩)

/-- Calls a method, and answers what it answers. -/
def callMethod (env : Env σ) (method : Method) (args : List Word) : Run σ (Option Word) := fun m =>
  match env.invoke method args m.shared with
  | (.ok w, s) => .ok w { m with shared := s }
  | (.error e, s) => .error (.thrown (.raised e)) { m with shared := s }

/-- Runs a constructor. -/
def callConstructor (enter : Enter σ) (c : Constructor) (args : List Word) : Run σ Unit := fun m =>
  match enter c args m.shared with
  | (.returned none, s) => .ok () { m with shared := s }
  | (.thrown t, s) => .error (.thrown t) { m with shared := s }
  | (_, s) => .error .stuck { m with shared := s }

/-- Puts what a method of the type answers on the stack. -/
def pushAnswer (t : JType) (answer : Option Word) : Run σ Unit :=
  match answer with
  | none => require (t.kind? = none) .stuck
  | some w => do
    require (t.kind? = some w.kind) .stuck
    push w

variable (env : Env σ) (enter : Enter σ)

/-- The number in a box of the type. -/
def openBox (p : Primitive) : Ref → Run σ Number
  | .null => throw (.thrown .nullPointer)
  | .box b => if b.type = p then return b.number else throw .stuck
  | _ => throw .stuck

/-- Performs an action. -/
def perform : Act → Run σ Unit
  | .push w => push w
  | .load kind slot => fun m =>
    match m.locals[slot]? with
    | some (some w) => if w.kind = kind then push w m else .error .stuck m
    | _ => .error .stuck m
  | .dup => do
    let w ← popSingle
    push w
    push w
  | .pop => do
    let _ ← popSingle
  | .make className => allocate (.object className [])
  | .makeArray element => do
    let length ← popInt
    require (0 ≤ length.toInt) (.thrown .negativeSize)
    allocate (.array element (List.replicate length.toInt.toNat .null))
  | .storeItem => do
    let item ← popRef
    let index ← popInt
    let (a, element, items) ← arrayAt (← popRef)
    let index ← checkIndex index items.length
    require (← isInstance env item element) (.thrown .arrayStore)
    setCell a (.array element (items.set index item))
  | .loadItem => do
    let index ← popInt
    let (_, _, items) ← arrayAt (← popRef)
    let index ← checkIndex index items.length
    push (.ref (items.getD index .null))
  | .cast className => do
    let r ← popRef
    require (← isInstance env r className) (.thrown .classCast)
    push (.ref r)
  | .getField f => do
    let (_, _, fields) ← objectAt (← popRef)
    match fields.lookup f with
    | some w => do
      require (w.kind = f.kind) .stuck
      push w
    | none => throw .stuck
  | .putField f => do
    let w ← popWord f.kind
    let (a, className, fields) ← objectAt (← popRef)
    setCell a (.object className ((f, w) :: fields))
  | .box p => do
    match ← popWord p.kind with
    | .number n =>
      match Box.of? p n with
      | some b => push (.ref (.box b))
      | none => throw .stuck
    | .ref _ => throw .stuck
  | .unbox p => do
    let n ← openBox p (← popRef)
    push (.number n)
  | .construct c => do
    let args ← popArguments c.params
    callConstructor enter c (.ref (← popRef) :: args)
  | .invoke isStatic method => do
    let args ← popArguments method.descriptor.params
    if isStatic then pushAnswer method.descriptor.ret (← callMethod env method args)
    else
      let r ← popRef
      require (r != .null) (.thrown .nullPointer)
      pushAnswer method.descriptor.ret (← callMethod env method (.ref r :: args))
  | .leave none => throw (.returned none)
  | .leave (some kind) => do
    let w ← popWord kind
    throw (.returned (some w))

/-! ## Running bodies -/

/-- The slots in use on the stack. -/
def depth : List Word → Nat
  | [] => 0
  | w :: stack => w.slots + depth stack

/-- Gets stuck unless the stack has room for what is on it. -/
def checkRoom (room : Nat) : Run σ Unit := fun m =>
  if depth m.stack ≤ room then .ok () m else .error .stuck m

/-- Performs an action on a stack with that room. -/
def step (room : Nat) (a : Act) : Run σ Unit := do
  perform env enter a
  checkRoom room

/-- Does what an instruction says. -/
def execute (room : Nat) (p : Pool) (i : Instruction) : Run σ Unit :=
  match env.resolve p i with
  | some a => step env enter room a
  | none => throw .stuck

/-- The local slots of words, each in as many slots as it takes. -/
def layOut (words : List Word) : List (Option Word) :=
  words.flatMap fun w => some w :: List.replicate (w.slots - 1) none

/-- Runs a body on words in its first slots. -/
def runBody (p : Pool) (b : Body) (words : List Word) (s : Shared σ) : Exit × Shared σ :=
  if (layOut words).length ≤ b.maxLocals.toNat then
    match b.instructions.forM (execute env enter b.maxStack.toNat p) ⟨[], layOut words, s⟩ with
    | .error e m => (e, m.shared)
    | .ok _ m => (.stuck, m.shared)
  else (.stuck, s)

end Steps

/-- Runs a body in which constructors run up to `nesting` deep. -/
def Env.run {σ : Type} (env : Env σ) (nesting : Nat) :
    Pool → Body → List Word → Shared σ → Exit × Shared σ :=
  match nesting with
  | 0 => runBody env fun _ _ s => (.stuck, s)
  | nesting + 1 => runBody env fun c => env.run nesting c.pool c.body

end Weft.Machine
