import Weft.Proofs.Weave.Handing

/-!
# What assigning code evaluates to

Straight code that assigns fields is evaluated without an object: values are terms that say what
they are computed from, and each assignment is recorded with the object, the field and the value.
The code that weaving inserts for the first values of instance fields evaluates, on whatever stack,
to one assignment for each of the fields, in their order, and leaves the stack as it was.
-/

namespace Weft.Weave

open Machine

/-! ## Terms -/

/-- A value, by what it is computed from. -/
inductive Term where
  /-- What the first local slot holds: in a constructor, the object that it constructs. -/
  | this
  | literal (value : Literal)
  | static (f : FieldKey)
  | cast (className : String) (t : Term)
  | call (m : Method) (arguments : List Term)

/-- A field of an object is set. -/
structure Assignment where
  object : Term
  field : FieldKey
  value : Term

/-- The values on the stack, and the assignments that were made. -/
structure Evaluation where
  stack : List Term
  made : List Assignment

/-- What an instruction does to values. -/
inductive Operation where
  | nothing
  | push (t : Term)
  | cast (className : String)
  /-- Calls a method with so many values, the receiver among them. -/
  | call (m : Method) (count : Nat)
  | assign (f : FieldKey)

/-- The values and assignments behind an operation. -/
def Operation.apply : Operation → Evaluation → Option Evaluation
  | nothing, e => some e
  | push t, e => some { e with stack := t :: e.stack }
  | cast name, ⟨t :: stack, made⟩ => some ⟨.cast name t :: stack, made⟩
  | call m count, ⟨stack, made⟩ =>
    if count ≤ stack.length then
      some ⟨.call m (stack.take count).reverse :: stack.drop count, made⟩
    else none
  | assign f, ⟨value :: object :: stack, made⟩ => some ⟨stack, made ++ [⟨object, f, value⟩]⟩
  | _, _ => none

section Operations

variable (p : Pool)

/-- The operation of an instruction without an operand. -/
def plainOperation? (op : Opcode) : Option Operation :=
  if op = .nop then some .nothing
  else if op = .aload0 then some (.push .this)
  else if 2 ≤ op.byte ∧ op.byte ≤ 8 then
    some (.push (.literal (.int (Int32.ofInt (op.byte.toNat - 3)))))
  else none

/-- The operation of a call that answers a value. -/
def callOperation? (op : Opcode) (owner name descriptor : String) : Option Operation :=
  match MethodDescriptor.ofText descriptor with
  | .error _ => none
  | .ok d =>
    if d.ret.isVoid then none
    else if op = .invokestatic then some (.call ⟨owner, name, d⟩ d.params.length)
    else if op = .invokevirtual then some (.call ⟨owner, name, d⟩ (d.params.length + 1))
    else none

/-- The operation of an instruction with a constant. -/
def constantOperation? (op : Opcode) (index : UInt16) : Option Operation :=
  match p.get index with
  | .ok (.classRef _) => if op = .checkcast then (classAt? p index).map .cast else none
  | .ok (.fieldRef owner nat) => do
    let (owner, name, descriptor) ← memberAt? p owner nat
    if op = .getstatic then some (.push (.static ⟨owner, name, descriptor⟩))
    else if op = .putfield then some (.assign ⟨owner, name, descriptor⟩)
    else none
  | .ok (.methodRef owner nat) => do
    let (owner, name, descriptor) ← memberAt? p owner nat
    callOperation? op owner name descriptor
  | _ =>
    if op = .ldc ∨ op = .ldc2W then
      (p.literal index).toOption.map fun value => .push (.literal value)
    else none

/-- The operation of an instruction of straight code. -/
def operation? (i : Instruction) : Option Operation :=
  match i.operand with
  | .none => plainOperation? i.opcode
  | .byte v => if i.opcode = .bipush then some (.push (.literal (.int v.toInt32))) else none
  | .short v => if i.opcode = .sipush then some (.push (.literal (.int v.toInt32))) else none
  | .constant index => constantOperation? p i.opcode index
  | _ => none

/-- The values and assignments behind an instruction. -/
def evaluate (e : Evaluation) (i : Instruction) : Option Evaluation :=
  (operation? p i).bind fun o => o.apply e

/-- The code makes these assignments, on whatever stack, which it leaves as it was. -/
def Makes (ops : List Instruction) (as : List Assignment) : Prop :=
  ∀ e : Evaluation, ops.foldlM (evaluate p) e = some { e with made := e.made ++ as }

end Operations

theorem apply_call (m : Method) (args stack : List Term) (made : List Assignment) :
    (Operation.call m args.length).apply ⟨args.reverse ++ stack, made⟩ =
      some ⟨.call m args :: stack, made⟩ := by
  simp [Operation.apply, List.take_left' args.length_reverse, List.drop_left' args.length_reverse]

/-! ## Constants -/

section Constants

variable {p : Pool} {index : UInt16} {op : Opcode}

theorem operation_class {name : String} (h : p.HoldsClass index name) (small : p.size < 65536) :
    operation? p ⟨.checkcast, .constant index⟩ = some (.cast name) := by
  obtain ⟨named, text, got⟩ := classAt?_of_holds h small
  simp only [operation?, constantOperation?, got, named]
  rfl

theorem operation_field {owner name descriptor : String}
    (h : p.HoldsField index owner name descriptor) (small : p.size < 65536) :
    operation? p ⟨op, .constant index⟩ =
      if op = .getstatic then some (.push (.static ⟨owner, name, descriptor⟩))
      else if op = .putfield then some (.assign ⟨owner, name, descriptor⟩)
      else none := by
  obtain ⟨c, nat, found, owned, typed⟩ := h
  simp only [operation?, constantOperation?, found.get (by simp) small.le,
    memberAt?_of_holds owned typed small]
  rfl

theorem operation_method {owner name : String} {d : MethodDescriptor} (spelled : d.Spelled)
    (h : p.HoldsMethod index owner name d.descriptor false) (small : p.size < 65536) :
    operation? p ⟨op, .constant index⟩ =
      if d.ret.isVoid then none
      else if op = .invokestatic then some (.call ⟨owner, name, d⟩ d.params.length)
      else if op = .invokevirtual then some (.call ⟨owner, name, d⟩ (d.params.length + 1))
      else none := by
  obtain ⟨c, nat, found, owned, typed⟩ := h
  have found : p.Holds index (.methodRef c nat) := found
  simp only [operation?, constantOperation?, found.get (by simp) small.le,
    memberAt?_of_holds owned typed small, callOperation?, Option.bind_eq_bind, Option.bind_some,
    MethodDescriptor.ofText_descriptor spelled]

theorem operation_string {text : String} (h : p.HoldsString index text) (small : p.size < 65536) :
    operation? p ⟨.ldc, .constant index⟩ = some (.push (.literal (.string text))) := by
  obtain ⟨t, found, named⟩ := h
  have got := found.get (by simp) small.le
  have literal : p.literal index = .ok (.string text) :=
    except_bind_eq_ok.2 ⟨_, got, except_bind_eq_ok.2 ⟨text, named.utf8 small.le, rfl⟩⟩
  simp only [operation?, constantOperation?, got, literal]
  rfl

theorem operation_int {v : Int32} {i : Instruction} (h : Build.PushesInt p v i)
    (small : p.size < 65536) : operation? p i = some (.push (.literal (.int v))) := by
  cases h with
  | @iconst opcode short =>
    obtain ⟨-, -, n, few, byte, same⟩ := Build.iconst?_eq_some short
    obtain ⟨op, known⟩ := opcode
    subst byte
    subst same
    interval_cases n <;> rfl
  | bipush least most =>
    show some _ = _
    rw [toInt32_toInt8 least most]
  | sipush least most =>
    show some _ = _
    rw [toInt32_toInt16 least most]
  | ldc held =>
    simp only [operation?, constantOperation?, Pool.literal, held.get (by simp) small.le]
    rfl

end Constants

/-! ## Steps of building -/

section Steps

variable {α β : Type} {ts ts' ts'' : List Term} {as as' : List Assignment}

/-- What the step writes leads from values to others above the same stack, and makes these
assignments on the way, in every pool that grows out of that of the builder. -/
def Evaluates (x : Build α) (ts ts' : List Term) (as : List Assignment) : Prop :=
  ∀ b a b', x b = .ok a b' → ∃ ops, b.Wrote b' ops ∧ (b.pool.Sound → ∀ q, b'.pool.Extends q →
    q.size < 65536 → ∀ stack made, ops.foldlM (evaluate q) ⟨ts ++ stack, made⟩ =
      some ⟨ts' ++ stack, made ++ as⟩)

namespace Evaluates

theorem pure (a : α) (ts : List Term) : Evaluates (Pure.pure a : Build α) ts ts [] := by
  intro b a' b' h
  obtain ⟨-, rfl⟩ := step_pure_eq_ok.1 h
  exact ⟨[], .refl b, fun _ q _ _ stack made => by rw [List.append_nil]; rfl⟩

theorem bind {x : Build α} {f : α → Build β} (hx : Evaluates x ts ts' as)
    (hf : ∀ a, Evaluates (f a) ts' ts'' as') : Evaluates (x >>= f) ts ts'' (as ++ as') := by
  intro b c b'' h
  obtain ⟨a, b', first, second⟩ := step_bind_eq_ok.1 h
  obtain ⟨ops, wrote, made⟩ := hx b a b' first
  obtain ⟨ops', wrote', made'⟩ := hf a b' c b'' second
  refine ⟨ops ++ ops', wrote.trans wrote', fun sound q grown small stack before => ?_⟩
  rw [List.foldlM_append, made sound q (wrote'.pool.keeps.trans grown) small, ← List.append_assoc]
  exact made' (wrote.pool.sound sound) q grown small stack _

/-- A step in front of others that assigns nothing. -/
theorem before {x : Build α} {f : α → Build β} (hx : Evaluates x ts ts' [])
    (hf : ∀ a, Evaluates (f a) ts' ts'' as) : Evaluates (x >>= f) ts ts'' as := hx.bind hf

/-- A step that writes one instruction. -/
theorem single {x : Build Unit} {o : Operation} {P : Pool → Instruction → Prop}
    (wrote : ∀ b b', x b = .ok () b' → ∃ i, b.Wrote b' [i] ∧ (b.pool.Sound → P b'.pool i))
    (operation : ∀ p q i, P p i → p.Extends q → q.size < 65536 → operation? q i = some o)
    (applied : ∀ stack made, o.apply ⟨ts ++ stack, made⟩ = some ⟨ts' ++ stack, made ++ as⟩) :
    Evaluates x ts ts' as := by
  intro b _ b' h
  obtain ⟨i, wrote, held⟩ := wrote b b' h
  refine ⟨[i], wrote, fun sound q grown small stack made => ?_⟩
  rw [List.foldlM_cons, evaluate, operation _ q i (held sound) grown small, Option.bind_some,
    applied]
  rfl

/-- A step that writes one instruction with a constant. -/
theorem constant {x : Build Unit} {op : Opcode} {o : Operation} {P : Pool → UInt16 → Prop}
    (wrote : ∀ b b', x b = .ok () b' →
      ∃ index, b.Wrote b' [⟨op, .constant index⟩] ∧ (b.pool.Sound → P b'.pool index))
    (operation : ∀ p q index, P p index → p.Extends q → q.size < 65536 →
      operation? q ⟨op, .constant index⟩ = some o)
    (applied : ∀ stack made, o.apply ⟨ts ++ stack, made⟩ = some ⟨ts' ++ stack, made ++ as⟩) :
    Evaluates x ts ts' as :=
  .single (P := fun p i => ∃ index, i = ⟨op, .constant index⟩ ∧ P p index)
    (fun b b' h =>
      have ⟨index, wrote, held⟩ := wrote b b' h
      ⟨_, wrote, fun sound => ⟨index, rfl, held sound⟩⟩)
    (fun p q _ ⟨index, same, held⟩ grown small => same ▸ operation p q index held grown small)
    applied

end Evaluates

theorem apply_push (t : Term) (ts stack : List Term) (made : List Assignment) :
    (Operation.push t).apply ⟨ts ++ stack, made⟩ = some ⟨t :: ts ++ stack, made ++ []⟩ := by
  rw [List.append_nil]
  rfl

theorem evaluates_loadThis (ts : List Term) : Evaluates Build.loadThis ts (.this :: ts) [] :=
  .single (P := fun _ i => i = ⟨.aload0, .none⟩)
    (fun _ _ h => ⟨_, Build.loadThis_wrote h, fun _ => rfl⟩) (fun _ _ _ same _ _ => same ▸ rfl)
    (apply_push .this ts)

/-- A step that puts a number on the stack that is no `int`. -/
theorem evaluates_number {opcode : Opcode} {pops pushes : UInt16} {value : Literal} {c : Constant}
    (add : Pool.addLiteral value = Pool.intern c) (usable : c ≠ .unusable)
    (kind : opcode.operandKind ∈ [OperandKind.constant1, .constant2])
    (plain : opcode.isForm = false) (operation : ∀ (p : Pool) index, p.get index = .ok c →
      constantOperation? p opcode index = some (.push (.literal value))) (ts : List Term) :
    Evaluates
      (do Build.emit opcode (.constant (← Build.onPool (Pool.addLiteral value))) pops pushes)
      ts (.literal value :: ts) [] :=
  .constant (P := fun p index => p.Holds index c)
    (fun _ _ h => Build.literal_wrote h add usable kind plain)
    (fun _ q index held grown small => operation q index ((held.mono grown).get usable small.le))
    (apply_push (.literal value) ts)

theorem evaluates_pushLiteral (value : Literal) (ts : List Term) :
    Evaluates (Build.pushLiteral value) ts (.literal value :: ts) [] := by
  cases value with
  | int v =>
    exact .single (P := fun p i => Build.PushesInt p v i) (fun _ _ h => Build.pushInt_wrote h)
      (fun _ _ _ pushes grown small => operation_int (pushes.mono grown) small)
      (apply_push (.literal (.int v)) ts)
  | string text =>
    exact .constant (P := fun p index => p.HoldsString index text)
      (fun _ _ h => Build.pushString_wrote h)
      (fun _ _ _ held grown small => operation_string (held.mono grown) small)
      (apply_push (.literal (.string text)) ts)
  | long v =>
    exact evaluates_number rfl (by simp) (by decide) (by decide)
      (fun _ _ got => by simp only [constantOperation?, Pool.literal, got]; rfl) ts
  | float bits =>
    exact evaluates_number rfl (by simp) (by decide) (by decide)
      (fun _ _ got => by simp only [constantOperation?, Pool.literal, got]; rfl) ts
  | double bits =>
    exact evaluates_number rfl (by simp) (by decide) (by decide)
      (fun _ _ got => by simp only [constantOperation?, Pool.literal, got]; rfl) ts

theorem evaluates_getStatic (owner : ClassName) (name : String) (t : JType) (ts : List Term) :
    Evaluates (Build.getStatic owner name t) ts
      (.static ⟨owner.internal, name, t.descriptor⟩ :: ts) [] :=
  .constant (P := fun p index => p.HoldsField index owner.internal name t.descriptor)
    (fun _ _ h => Build.field_wrote h (by decide) (by decide))
    (fun _ _ _ held grown small => operation_field (held.mono grown) small)
    (apply_push (.static ⟨owner.internal, name, t.descriptor⟩) ts)

theorem evaluates_putField (owner : ClassName) (name : String) (t : JType) (value object : Term)
    (ts : List Term) : Evaluates (Build.putField owner name t) (value :: object :: ts) ts
      [⟨object, ⟨owner.internal, name, t.descriptor⟩, value⟩] :=
  .constant (P := fun p index => p.HoldsField index owner.internal name t.descriptor)
    (fun _ _ h => Build.field_wrote h (by decide) (by decide))
    (fun _ _ _ held grown small => operation_field (held.mono grown) small) fun _ _ => rfl

/-- Calls of methods that answer a value. -/
theorem evaluates_invoke {op : Opcode} {owner : ClassName} {name : String} {d : MethodDescriptor}
    (spelled : d.Spelled) (answers : d.ret.isVoid = false) (args ts : List Term)
    (count : op = .invokestatic ∧ args.length = d.params.length ∨
      op = .invokevirtual ∧ args.length = d.params.length + 1) :
    Evaluates (Build.invoke op owner name d false) (args.reverse ++ ts)
      (.call ⟨owner.internal, name, d⟩ args :: ts) [] := by
  have kind : op.operandKind = .constant2 ∧ op.isForm = false := by
    rcases count with ⟨rfl, -⟩ | ⟨rfl, -⟩ <;> decide
  refine .constant (o := .call ⟨owner.internal, name, d⟩ args.length)
    (P := fun p index => p.HoldsMethod index owner.internal name d.descriptor false)
    (fun _ _ h => Build.invoke_wrote h kind.1 kind.2)
    (fun _ q _ held grown small => (operation_method spelled (held.mono grown) small).trans ?_)
    fun stack made => ?_
  · rw [answers]
    rcases count with ⟨rfl, same⟩ | ⟨rfl, same⟩ <;> rw [same] <;> rfl
  · rw [List.append_nil, List.append_assoc]
    exact apply_call _ args _ made

/-- The value as one of the type, to which it is cast unless every object is one. -/
def castTo (t : JType) (value : Term) : Term :=
  if t = .object then value
  else match t.classOperand? with
    | some name => .cast name value
    | none => value

/-- The value of the type in an object. -/
def unboxed (t : JType) (value : Term) : Term :=
  match t with
  | .primitive p =>
    .call ⟨p.boxed.internal, p.unboxMethod, ⟨[], t⟩⟩ [castTo (.reference p.boxed) value]
  | _ => castTo t value

theorem evaluates_checkcast (t : JType) (value : Term) (ts : List Term) :
    Evaluates (Build.checkcast t) (value :: ts) (castTo t value :: ts) [] := by
  unfold Build.checkcast castTo
  split
  · exact .pure _ _
  · cases t.classOperand? with
    | none =>
      intro b _ b' h
      cases h
    | some name =>
      exact .constant (P := fun p index => p.HoldsClass index name)
        (fun _ _ h => Build.class_wrote h (by decide) (by decide))
        (fun _ _ _ held grown small => operation_class (held.mono grown) small)
        fun stack made => by rw [List.append_nil]; rfl

theorem evaluates_unbox (t : JType) (value : Term) (ts : List Term) :
    Evaluates (Build.unbox t) (value :: ts) (unboxed t value :: ts) [] := by
  cases t with
  | void =>
    intro b _ b' h
    cases h
  | primitive p =>
    exact (evaluates_checkcast _ value ts).before fun _ => evaluates_invoke (Build.spelled_unbox p)
      rfl [castTo (.reference p.boxed) value] ts (.inr ⟨rfl, rfl⟩)
  | reference name => exact evaluates_checkcast (.reference name) value ts
  | array n element => exact evaluates_checkcast (.array n element) value ts

end Steps

/-! ## First values -/

/-- What the callback of a holder answers for the object. -/
def asked (owner : ClassName) (holder : String) : Term :=
  .call ⟨bridgeClass.internal, "initialValue", initialValueDescriptor⟩
    [.static ⟨owner.internal, holder, JType.string.descriptor⟩, .this]

/-- The assignment by which the field of an object gets its first value. -/
def PlannedField.firstValue? (owner : ClassName) (f : PlannedField) : Option Assignment :=
  match f.init with
  | .default | .constant _ => none
  | .store value => some ⟨.this, ⟨owner.internal, f.name, f.type.descriptor⟩, .literal value⟩
  | .callback _ holder =>
    some ⟨.this, ⟨owner.internal, f.name, f.type.descriptor⟩, unboxed f.type (asked owner holder)⟩

theorem PlannedField.evaluates_assign (owner : ClassName) {f : PlannedField}
    (instances : f.isStatic = false) :
    Evaluates (f.assign owner) [] [] (f.firstValue? owner).toList := by
  have put (value : Term) : Evaluates (f.put owner) [value, .this] []
      [⟨.this, ⟨owner.internal, f.name, f.type.descriptor⟩, value⟩] := by
    unfold PlannedField.put
    rw [instances]
    exact evaluates_putField owner f.name f.type value .this []
  unfold PlannedField.assign firstValue?
  cases f.init with
  | default => exact .pure _ _
  | constant value => exact .pure _ _
  | store value =>
    exact (evaluates_loadThis []).before fun _ =>
      (evaluates_pushLiteral value _).before fun _ => put _
  | callback token holder =>
    simp only [instances]
    exact (evaluates_loadThis []).before fun _ =>
      (evaluates_getStatic owner holder .string _).before fun _ =>
        (evaluates_loadThis _).before fun _ =>
          (evaluates_invoke spelled_initialValueDescriptor rfl
            [.static ⟨owner.internal, holder, JType.string.descriptor⟩, .this] _
            (.inl ⟨rfl, rfl⟩)).before fun _ =>
              (evaluates_unbox f.type _ _).before fun _ => put _

theorem evaluates_assignAll (owner : ClassName) {fields : List PlannedField}
    (instances : ∀ f ∈ fields, f.isStatic = false) :
    Evaluates (assignAll owner fields) [] [] (fields.filterMap (·.firstValue? owner)) := by
  induction fields with
  | nil => exact .pure _ _
  | cons f fields ih =>
    have whole := (f.evaluates_assign owner (instances f List.mem_cons_self)).bind fun _ =>
      ih fun g mem => instances g (List.mem_cons_of_mem f mem)
    rw [List.filterMap_cons]
    cases first : f.firstValue? owner with
    | none =>
      rw [first] at whole
      exact whole
    | some a =>
      rw [first] at whole
      exact whole

/-! ## Inserted code -/

theorem makes_nil (p : Pool) : Makes p [] [] := by
  intro e
  rw [List.append_nil]
  rfl

/-- Instructions that do nothing change no value. -/
theorem evaluate_nops (p : Pool) (n : Nat) (e : Evaluation) :
    (List.replicate n (⟨.nop, .none⟩ : Instruction)).foldlM (evaluate p) e = some e := by
  induction n with
  | zero => rfl
  | succ n ih =>
    rw [List.replicate_succ, List.foldlM_cons]
    exact ih

/-- What is inserted for fields of objects assigns their first values. -/
theorem insertAssignment_makes {owner : ClassName} {p q r : Pool} {fields : List PlannedField}
    {code c : CodeAttribute} {body : Body} {position : Nat}
    (h : insertAssignment owner fields code body position p = .ok c q)
    (instances : ∀ f ∈ fields, f.isStatic = false) (sound : p.Sound)
    (read : Body.ofCode code p = .ok body) (short : code.code.length ≤ 65535)
    (grown : q.Extends r) (small : r.size < 65536) :
    ∃ g b part, Body.ofCode c r = .ok b ∧
      b.instructions = (body.instructionsBefore position).map (·.mapLabels g) ++
        (part ++ (body.instructionsFrom position).map (·.mapLabels g)) ∧
      Makes r part (fields.filterMap (·.firstValue? owner)) := by
  obtain ⟨made, n, ran, later, reread⟩ := insertAssignment_reread h sound read short grown small
  obtain ⟨ops, wrote, evaluated⟩ := evaluates_assignAll owner instances _ _ _ ran
  obtain ⟨g, b, read', instructions⟩ := reread ops wrote
  refine ⟨g, b, padded ops n, read', instructions, fun e => ?_⟩
  rw [padded, List.foldlM_append]
  exact (congrArg (· >>= _) (evaluated sound r later small e.stack e.made)).trans
    (evaluate_nops r n _)

end Weft.Weave
