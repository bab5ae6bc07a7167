import Weft.Proofs.Code.Building
import Weft.Proofs.Machine.Depth
import Weft.Proofs.Signature.Descriptors

/-!
# What built code does

`Performs env x as` says that the instructions that a step of building writes resolve to the actions
`as`, in every pool that grows out of that of the builder, and that the builder counts the depths
that the actions go through. Composed steps perform the actions of their parts one behind the other.
-/

namespace Weft

open Machine

/-! ## Constants -/

section Constants

variable {σ : Type} {env : Env σ} {p : Pool} {index : UInt16}

theorem classAt?_of_holds {name : String} (h : p.HoldsClass index name) (small : p.size < 65536) :
    classAt? p index = some name ∧ ∃ text, p.get index = .ok (.classRef text) := by
  obtain ⟨text, found, named⟩ := h
  have got := found.get (by simp) small.le
  refine ⟨?_, text, got⟩
  simp only [classAt?, got, named.utf8 small.le]
  rfl

theorem memberAt?_of_holds {owner nat : UInt16} {className name descriptor : String}
    (owned : p.HoldsClass owner className) (typed : p.HoldsNameAndType nat name descriptor)
    (small : p.size < 65536) : memberAt? p owner nat = some (className, name, descriptor) := by
  obtain ⟨m, n, found, named, described⟩ := typed
  simp only [memberAt?, (classAt?_of_holds owned small).1, found.get (by simp) small.le,
    named.utf8 small.le, described.utf8 small.le]
  rfl

theorem resolve_class {op : Opcode} {name : String} (h : p.HoldsClass index name)
    (small : p.size < 65536) : env.resolve p ⟨op, .constant index⟩ =
      if op = .newObject then some (.make name)
      else if op = .anewarray then some (.makeArray name)
      else if op = .checkcast then some (.cast name)
      else none := by
  obtain ⟨resolved, text, got⟩ := classAt?_of_holds h small
  simp only [Env.resolve, constantAction?, got, resolved]
  rfl

theorem resolve_field {op : Opcode} {owner name descriptor : String}
    (h : p.HoldsField index owner name descriptor) (small : p.size < 65536) :
    env.resolve p ⟨op, .constant index⟩ =
      if op = .getfield then some (.getField ⟨owner, name, descriptor⟩)
      else if op = .putfield then some (.putField ⟨owner, name, descriptor⟩)
      else none := by
  obtain ⟨c, nat, found, owned, typed⟩ := h
  simp only [Env.resolve, constantAction?, found.get (by simp) small.le,
    memberAt?_of_holds owned typed small]
  rfl

theorem resolve_method {op : Opcode} {owner name descriptor : String}
    (h : p.HoldsMethod index owner name descriptor false) (small : p.size < 65536) :
    env.resolve p ⟨op, .constant index⟩ = callAction? env op owner name descriptor := by
  obtain ⟨c, nat, found, owned, typed⟩ := h
  have found : p.Holds index (.methodRef c nat) := found
  simp only [Env.resolve, constantAction?, found.get (by simp) small.le,
    memberAt?_of_holds owned typed small]
  rfl

theorem resolve_string {text : String} (h : p.HoldsString index text) (small : p.size < 65536) :
    env.resolve p ⟨.ldc, .constant index⟩ = some (.push (.ref (.text text))) := by
  obtain ⟨t, found, named⟩ := h
  simp only [Env.resolve, constantAction?, found.get (by simp) small.le, constantWord?,
    named.utf8 small.le]
  rfl

theorem toInt32_toInt8 {v : Int32} (least : -128 ≤ v) (most : v ≤ 127) :
    v.toInt8.toInt32 = v := by
  rw [Int32.le_iff_toInt_le] at least most
  have least : -128 ≤ v.toInt := least
  have most : v.toInt ≤ 127 := most
  rw [← Int32.toInt_inj, Int8.toInt_toInt32, Int32.toInt_toInt8, Int.bmod_eq_of_le] <;> omega

theorem toInt32_toInt16 {v : Int32} (least : -32768 ≤ v) (most : v ≤ 32767) :
    v.toInt16.toInt32 = v := by
  rw [Int32.le_iff_toInt_le] at least most
  have least : -32768 ≤ v.toInt := least
  have most : v.toInt ≤ 32767 := most
  rw [← Int32.toInt_inj, Int16.toInt_toInt32, Int32.toInt_toInt16, Int.bmod_eq_of_le] <;> omega

theorem resolve_int {v : Int32} {i : Instruction} (h : Build.PushesInt p v i)
    (small : p.size < 65536) : env.resolve p i = some (.push (.number (.int v))) := by
  cases h with
  | @iconst opcode short =>
    obtain ⟨-, -, n, few, byte, same⟩ := Build.iconst?_eq_some short
    obtain ⟨op, known⟩ := opcode
    subst byte
    subst same
    interval_cases n <;> rfl
  | bipush least most =>
    show some _ = _
    rw [toInt32_toInt8 least most]
  | sipush least most =>
    show some _ = _
    rw [toInt32_toInt16 least most]
  | ldc held =>
    simp only [Env.resolve, constantAction?, held.get (by simp) small.le, constantWord?]
    rfl

end Constants

/-! ## Depths that are counted -/

namespace Builder

/-- The builder counts what one instruction does to the depth. -/
structure Emitted (b b' : Builder) (pops pushes : UInt16) : Prop where
  enough : pops ≤ b.depth
  depth : b'.depth = b.depth - pops + pushes
  highest : b'.maxDepth = max b.maxDepth b'.depth

/-- The builder counts the depths that the actions go through, as long as sixteen bits hold them. -/
structure Counts (b b' : Builder) (as : List Act) : Prop where
  grown : b.maxDepth ≤ b'.maxDepth
  depth : (∀ n ∈ heights b.depth.toNat as, n < 65536) → b'.depth.toNat = height b.depth.toNat as
  highest : (∀ n ∈ heights b.depth.toNat as, n < 65536) →
    ∀ n ∈ heights b.depth.toNat as, n ≤ b'.maxDepth.toNat

namespace Counts

variable {b b' b'' : Builder} {as bs : List Act}

theorem refl (b : Builder) : b.Counts b [] := ⟨UInt16.le_refl _, fun _ => rfl, fun _ _ mem => nomatch mem⟩

theorem trans (h : b.Counts b' as) (h' : b'.Counts b'' bs) : b.Counts b'' (as ++ bs) where
  grown := UInt16.le_trans h.grown h'.grown
  depth low := by
    rw [heights_append] at low
    have first := h.depth fun n mem => low n (List.mem_append_left _ mem)
    rw [height_append, ← first]
    exact h'.depth fun n mem => low n (List.mem_append_right _ (first ▸ mem))
  highest low n mem := by
    rw [heights_append] at low mem
    have first := h.depth fun n mem => low n (List.mem_append_left _ mem)
    rcases List.mem_append.1 mem with mem | mem
    · have bound := h.highest (fun n mem => low n (List.mem_append_left _ mem)) n mem
      exact bound.trans (UInt16.le_iff_toNat_le.1 h'.grown)
    · rw [← first] at mem
      exact h'.highest (fun n mem => low n (List.mem_append_right _ (first ▸ mem))) n mem

end Counts

theorem Emitted.counts {b b' : Builder} {pops pushes : UInt16} (h : b.Emitted b' pops pushes)
    {a : Act} (popped : pops.toNat = a.pops) (pushed : pushes.toNat = a.pushes) :
    b.Counts b' [a] := by
  have grown : b.maxDepth ≤ b'.maxDepth ∧ b'.depth ≤ b'.maxDepth :=
    h.highest ▸ le_max b.maxDepth b'.depth
  have counted (low : a.after b.depth.toNat < 65536) : b'.depth.toNat = a.after b.depth.toNat := by
    have enough := UInt16.le_iff_toNat_le.1 h.enough
    unfold Act.after at low ⊢
    rw [h.depth, UInt16.toNat_add, UInt16.toNat_sub_of_le _ _ h.enough]
    omega
  refine ⟨grown.1, fun low => counted (low _ List.mem_cons_self), fun low n mem => ?_⟩
  rw [List.mem_singleton.1 mem, ← counted (low _ List.mem_cons_self)]
  exact UInt16.le_iff_toNat_le.1 grown.2

end Builder

namespace Build

variable {b b' : Builder} {pops pushes : UInt16}

theorem emit_emitted {opcode : Opcode} {operand : Operand}
    (h : emit opcode operand pops pushes b = .ok () b') : b.Emitted b' pops pushes := by
  obtain ⟨enough, rfl⟩ := emit_eq_ok.1 h
  exact ⟨enough, rfl, rfl⟩

theorem constant_emitted {opcode : Opcode} {f : UInt16 → Operand} {add : StateM Pool UInt16}
    (h : (onPool add >>= fun index => emit opcode (f index) pops pushes) b = .ok () b') :
    b.Emitted b' pops pushes := by
  obtain ⟨index, b₁, added, h⟩ := step_bind_eq_ok.1 h
  obtain ⟨-, rfl⟩ := onPool_eq_ok added
  obtain ⟨enough, depth, highest⟩ := emit_emitted h
  exact ⟨enough, depth, highest⟩

theorem load_emitted {t : JType} {slot : UInt16} (h : load t slot b = .ok () b') :
    b.Emitted b' 0 t.slots := by
  unfold load at h
  split at h
  · cases h
  · obtain ⟨⟨⟩, b₁, used, h⟩ := step_bind_eq_ok.1 h
    cases used
    obtain ⟨enough, depth, highest⟩ := emit_emitted h
    exact ⟨enough, depth, highest⟩

end Build

/-! ## Slots of parameters -/

/-- Slots are summed up in sixteen bits. -/
theorem MethodDescriptor.paramSlots_eq (d : MethodDescriptor) :
    d.paramSlots = UInt16.ofNat (slotsOf d.params) := by
  have counted (ts : List JType) (n : UInt16) :
      ts.foldl (fun n t => n + t.slots) n = n + UInt16.ofNat (slotsOf ts) := by
    induction ts generalizing n with
    | nil => exact (UInt16.add_zero n).symm
    | cons t ts ih =>
      rw [List.foldl_cons, ih, slotsOf, UInt16.ofNat_add, UInt16.ofNat_toNat, UInt16.add_assoc]
  rw [paramSlots, counted, UInt16.zero_add]

theorem MethodDescriptor.toNat_paramSlots {d : MethodDescriptor} (few : slotsOf d.params < 65536) :
    d.paramSlots.toNat = slotsOf d.params := by
  rw [paramSlots_eq]
  exact UInt16.toNat_ofNat_of_lt' few

/-! ## Steps and what they do -/

namespace Build

variable {σ : Type} {env : Env σ} {α : Type}

/-- What the instructions do that are written between two states of a builder. -/
structure Performed (env : Env σ) (b b' : Builder) (as : List Act) : Prop where
  wrote : ∃ ops, b.Wrote b' ops ∧ ops.length = as.length ∧
    (b.pool.Sound → ∀ q, b'.pool.Extends q → q.size < 65536 →
      List.Forall₂ (fun i a => env.resolve q i = some a) ops as)
  counts : b.Counts b' as

/-- The step writes instructions for the actions. -/
def Performs (env : Env σ) (x : Build Unit) (as : List Act) : Prop :=
  ∀ b b', x b = .ok () b' → Performed env b b' as

namespace Performs

theorem pure : Performs env (Pure.pure () : Build Unit) [] := by
  intro b b' h
  obtain ⟨-, rfl⟩ := step_pure_eq_ok.1 h
  exact ⟨⟨[], .refl b, rfl, fun _ _ _ _ => .nil⟩, .refl b⟩

theorem bind {x : Build Unit} {f : Unit → Build Unit} {as bs : List Act}
    (hx : Performs env x as) (hf : Performs env (f ()) bs) : Performs env (x >>= f) (as ++ bs) := by
  intro b b'' h
  obtain ⟨⟨⟩, b', first, second⟩ := step_bind_eq_ok.1 h
  obtain ⟨⟨ops, wrote, length, resolved⟩, counts⟩ := hx b b' first
  obtain ⟨⟨ops', wrote', length', resolved'⟩, counts'⟩ := hf b' b'' second
  refine ⟨⟨ops ++ ops', wrote.trans wrote', by simp [length, length'],
    fun sound q grown small => ?_⟩, counts.trans counts'⟩
  exact List.rel_append (resolved sound q (wrote'.pool.keeps.trans grown) small)
    (resolved' (wrote.pool.sound sound) q grown small)

/-- A step that writes one instruction. -/
theorem single {x : Build Unit} {a : Act} {pops pushes : UInt16} {P : Pool → Instruction → Prop}
    (emitted : ∀ b b', x b = .ok () b' → b.Emitted b' pops pushes)
    (wrote : ∀ b b', x b = .ok () b' → ∃ i, b.Wrote b' [i] ∧ (b.pool.Sound → P b'.pool i))
    (resolved : ∀ p q i, P p i → p.Extends q → q.size < 65536 → env.resolve q i = some a)
    (popped : pops.toNat = a.pops) (pushed : pushes.toNat = a.pushes) : Performs env x [a] := by
  intro b b' h
  obtain ⟨i, wrote, held⟩ := wrote b b' h
  refine ⟨⟨[i], wrote, rfl, fun sound q grown small => ?_⟩, (emitted b b' h).counts popped pushed⟩
  exact .cons (resolved _ q i (held sound) grown small) .nil

/-- A step that writes one instruction with a constant. -/
theorem constant {opcode : Opcode} {add : StateM Pool UInt16} {a : Act} {pops pushes : UInt16}
    {P : Pool → UInt16 → Prop}
    (wrote : ∀ b b', (do emit opcode (.constant (← onPool add)) pops pushes) b = .ok () b' →
      ∃ index, b.Wrote b' [⟨opcode, .constant index⟩] ∧ (b.pool.Sound → P b'.pool index))
    (resolved : ∀ p q index, P p index → p.Extends q → q.size < 65536 →
      env.resolve q ⟨opcode, .constant index⟩ = some a)
    (popped : pops.toNat = a.pops) (pushed : pushes.toNat = a.pushes) :
    Performs env (do emit opcode (.constant (← onPool add)) pops pushes) [a] :=
  .single (P := fun p i => ∃ index, i = ⟨opcode, .constant index⟩ ∧ P p index)
    (fun _ _ h => constant_emitted (f := .constant) h)
    (fun b b' h =>
      have ⟨index, wrote, held⟩ := wrote b b' h
      ⟨_, wrote, fun sound => ⟨index, rfl, held sound⟩⟩)
    (fun p q _ ⟨index, same, held⟩ grown small => same ▸ resolved p q index held grown small)
    popped pushed

end Performs

/-- A step that writes an instruction without a constant. -/
theorem performs_op {opcode : Opcode} {pops pushes : UInt16} {a : Act}
    (kind : opcode.operandKind = .none) (plain : opcode.isForm = false)
    (resolved : plainAction? opcode = some a) (popped : pops.toNat = a.pops)
    (pushed : pushes.toNat = a.pushes) : Performs env (op opcode pops pushes) [a] :=
  .single (P := fun _ i => i = ⟨opcode, .none⟩) (fun _ _ h => emit_emitted h)
    (fun _ _ h => ⟨_, op_wrote h kind plain, fun _ => rfl⟩)
    (fun _ _ _ same _ _ => same ▸ resolved) popped pushed

theorem performs_pushNull : Performs env pushNull [.push (.ref .null)] :=
  performs_op (by decide) (by decide) rfl rfl rfl

theorem performs_loadThis : Performs env loadThis [.load .reference 0] :=
  performs_op (by decide) (by decide) rfl rfl rfl

theorem performs_dup : Performs env dup [.dup] := performs_op (by decide) (by decide) rfl rfl rfl

theorem performs_popObject : Performs env (popValue .object) [.pop] :=
  performs_op (by decide) (by decide) rfl rfl rfl

theorem performs_arrayStore : Performs env arrayStore [.storeItem] :=
  performs_op (by decide) (by decide) rfl rfl rfl

theorem performs_arrayLoad : Performs env arrayLoad [.loadItem] :=
  performs_op (by decide) (by decide) rfl rfl rfl

theorem performs_returnValue (t : JType) : Performs env (returnValue t) [.leave t.kind?] := by
  cases t with
  | void => exact performs_op (by decide) (by decide) rfl rfl rfl
  | primitive p => cases p <;> exact performs_op (by decide) (by decide) rfl rfl rfl
  | _ =>
    show Performs env (op .areturn 1 0) [.leave (some .reference)]
    exact performs_op (by decide) (by decide) rfl rfl rfl

theorem performs_pushString (text : String) :
    Performs env (pushString text) [.push (.ref (.text text))] :=
  .constant (P := fun p index => p.HoldsString index text) (fun _ _ h => pushString_wrote h)
    (fun _ _ _ held grown small => resolve_string (held.mono grown) small) rfl rfl

theorem PushesInt.mono {p q : Pool} {v : Int32} {i : Instruction} (h : PushesInt p v i)
    (grown : p.Extends q) : PushesInt q v i := by
  cases h with
  | iconst short => exact .iconst short
  | bipush least most => exact .bipush least most
  | sipush least most => exact .sipush least most
  | ldc held => exact .ldc (held.mono grown)

theorem pushInt_emitted {b b' : Builder} {v : Int32} (h : pushInt v b = .ok () b') :
    b.Emitted b' 0 1 := by
  unfold pushInt at h
  cases short : Opcode.iconst? v with
  | some opcode =>
    rw [short] at h
    exact emit_emitted h
  | none =>
    rw [short] at h
    dsimp only at h
    split at h
    · exact emit_emitted h
    · split at h
      · exact emit_emitted h
      · exact constant_emitted (f := .constant) h

theorem performs_pushInt (v : Int32) : Performs env (pushInt v) [.push (.number (.int v))] :=
  .single (P := fun p i => PushesInt p v i) (fun _ _ h => pushInt_emitted h)
    (fun _ _ h => pushInt_wrote h)
    (fun _ _ _ pushes grown small => resolve_int (pushes.mono grown) small) rfl rfl

/-- What puts a value of the type from a slot on the stack. -/
def loadActions (t : JType) (slot : UInt16) : List Act :=
  (t.kind?.map (Act.load · slot.toNat)).toList

theorem performs_load (t : JType) (slot : UInt16) :
    Performs env (load t slot) (loadActions t slot) := by
  cases kind : t.kind? with
  | none =>
    intro b b' h
    obtain rfl := JType.eq_void_of_kind? kind
    cases h
  | some k =>
    rw [loadActions, kind]
    refine .single (a := .load k slot.toNat)
      (P := fun _ i => i = ⟨byKind .iload .lload .fload .dload .aload t, .local slot⟩)
      (fun _ _ h => load_emitted h) (fun _ _ h => ⟨_, (load_wrote h).2, fun _ => rfl⟩)
      (fun _ _ _ same _ _ => same ▸ ?_) rfl (JType.toNat_slots kind)
    cases t with
    | void => cases kind
    | primitive p =>
      cases kind
      cases p <;> rfl
    | _ =>
      cases kind
      rfl

/-- A step that writes an instruction with a class. -/
theorem performs_class {opcode : Opcode} {pops pushes : UInt16} {name : String} {a : Act}
    (kind : opcode.operandKind = .constant2) (plain : opcode.isForm = false)
    (resolved : ∀ p index, p.HoldsClass index name → p.size < 65536 →
      env.resolve p ⟨opcode, .constant index⟩ = some a)
    (popped : pops.toNat = a.pops) (pushed : pushes.toNat = a.pushes) :
    Performs env (do emit opcode (.constant (← onPool (Pool.addClass name))) pops pushes) [a] :=
  .constant (P := fun p index => p.HoldsClass index name) (fun _ _ h => class_wrote h kind plain)
    (fun _ _ _ held grown small => resolved _ _ (held.mono grown) small) popped pushed

theorem performs_newObject (name : ClassName) :
    Performs env (newObject name) [.make name.internal] :=
  performs_class (by decide) (by decide) (fun _ _ held small => resolve_class held small) rfl rfl

theorem performs_newObjectArray :
    Performs env (newArray .object) [.makeArray ClassName.object.internal] :=
  performs_class (by decide) (by decide) (fun _ _ held small => resolve_class held small) rfl rfl

/-- The check that a reference is of the type. -/
def castActions (t : JType) : List Act :=
  if t = .object then [] else (t.classOperand?.map Act.cast).toList

theorem performs_checkcast (t : JType) : Performs env (checkcast t) (castActions t) := by
  unfold checkcast castActions
  split
  · exact .pure
  · cases operand : t.classOperand? with
    | none =>
      intro b b' h
      cases h
    | some name =>
      exact performs_class (by decide) (by decide) (fun _ _ held small => resolve_class held small)
        rfl rfl

/-- A step that uses a field. -/
theorem performs_field {opcode : Opcode} {owner : ClassName} {name : String} {t : JType}
    {pops pushes : UInt16} {a : Act} (kind : opcode.operandKind = .constant2)
    (plain : opcode.isForm = false)
    (resolved : ∀ p index, p.HoldsField index owner.internal name t.descriptor → p.size < 65536 →
      env.resolve p ⟨opcode, .constant index⟩ = some a)
    (popped : pops.toNat = a.pops) (pushed : pushes.toNat = a.pushes) :
    Performs env (field opcode owner name t pops pushes) [a] :=
  .constant (P := fun p index => p.HoldsField index owner.internal name t.descriptor)
    (fun _ _ h => field_wrote h kind plain)
    (fun _ _ _ held grown small => resolved _ _ (held.mono grown) small) popped pushed

/-- A step that calls a method of a class. -/
theorem performs_invoke {opcode : Opcode} {owner : ClassName} {name : String}
    {d : MethodDescriptor} {a : Act} (kind : opcode.operandKind = .constant2)
    (plain : opcode.isForm = false)
    (resolved : callAction? env opcode owner.internal name d.descriptor = some a)
    (popped : (d.paramSlots + if opcode = .invokestatic then 0 else 1).toNat = a.pops)
    (pushed : d.ret.slots.toNat = a.pushes) : Performs env (invoke opcode owner name d false) [a] := by
  have other : opcode ≠ .invokeinterface := by
    rintro rfl
    cases kind
  have written : invoke opcode owner name d false = (do
      emit opcode (.constant (← onPool (Pool.addMethodRef owner.internal name d.descriptor false)))
        (d.paramSlots + if opcode = .invokestatic then 0 else 1) d.ret.slots) := by
    unfold invoke
    simp only [if_neg other]
  rw [written]
  exact .constant (P := fun p index => p.HoldsMethod index owner.internal name d.descriptor false)
    (fun _ _ h => invoke_wrote (written ▸ h) kind plain)
    (fun _ _ _ held grown small => (resolve_method (held.mono grown) small).trans resolved)
    popped pushed

/-! ## Calls -/

theorem performs_initObject : Performs env (invokeSpecial .object "<init>" ⟨[], .void⟩) [.pop] := by
  refine performs_invoke (by decide) (by decide) ?_ rfl rfl
  have builtIn := env.constructors_object
  simp only [callAction?, if_true, ne_eq, not_true_eq_false, if_false]
  rw [show MethodDescriptor.descriptor ⟨[], .void⟩ = "()V" by decide, builtIn]
  rfl

theorem performs_construct {owner : ClassName} {d : MethodDescriptor} {c : Constructor}
    (known : env.constructors owner.internal d.descriptor = some c) (plain : d.ret = .void)
    (few : slotsOf d.params < 65535) (params : c.params = d.params) :
    Performs env (invokeSpecial owner "<init>" d) [.construct c] := by
  have counted := MethodDescriptor.toNat_paramSlots (d := d) (by omega)
  refine performs_invoke (by decide) (by decide) ?_ ?_ (plain ▸ rfl)
  · simp only [callAction?, if_true, ne_eq, not_true_eq_false, if_false, known]
  · rw [if_neg (by decide), UInt16.toNat_add, counted, Act.pops, params]
    exact Nat.mod_eq_of_lt (show slotsOf d.params + 1 < 65536 by omega)

theorem performs_invokeStatic {owner : ClassName} {name : String} {d : MethodDescriptor}
    (spelled : d.Spelled) (few : slotsOf d.params < 65535)
    (other : boxing? ⟨owner.internal, name, d⟩ = none) :
    Performs env (invokeStatic owner name d) [.invoke true ⟨owner.internal, name, d⟩] := by
  have counted := MethodDescriptor.toNat_paramSlots (d := d) (by omega)
  refine performs_invoke (by decide) (by decide) ?_ ?_ rfl
  · simp only [callAction?, if_neg (show Opcode.invokestatic ≠ .invokespecial by decide),
      MethodDescriptor.ofText_descriptor spelled, if_true, other]
  · rw [if_pos rfl, UInt16.add_zero, counted]
    rfl

theorem performs_invokeVirtual {owner : ClassName} {name : String} {d : MethodDescriptor}
    (spelled : d.Spelled) (few : slotsOf d.params < 65535)
    (other : unboxing? ⟨owner.internal, name, d⟩ = none) :
    Performs env (invokeVirtual owner name d) [.invoke false ⟨owner.internal, name, d⟩] := by
  have counted := MethodDescriptor.toNat_paramSlots (d := d) (by omega)
  refine performs_invoke (by decide) (by decide) ?_ ?_ rfl
  · simp only [callAction?, if_neg (show Opcode.invokevirtual ≠ .invokespecial by decide),
      if_neg (show Opcode.invokevirtual ≠ .invokestatic by decide),
      MethodDescriptor.ofText_descriptor spelled, if_true, other]
  · rw [if_neg (by decide), UInt16.toNat_add, counted]
    exact Nat.mod_eq_of_lt (show slotsOf d.params + 1 < 65536 by omega)

theorem spelled_boxed (p : Primitive) : (JType.reference p.boxed).Spelled :=
  .element (.reference (by cases p <;> exact ClassName.spelled_of_all (by decide) (by decide)))

theorem spelled_box (p : Primitive) :
    MethodDescriptor.Spelled ⟨[.primitive p], .reference p.boxed⟩ :=
  ⟨fun _ mem => List.mem_singleton.1 mem ▸ .element (.primitive p), .inr (spelled_boxed p)⟩

theorem spelled_unbox (p : Primitive) : MethodDescriptor.Spelled ⟨[], .primitive p⟩ :=
  ⟨List.forall_mem_nil _, .inr (.element (.primitive p))⟩

/-- What puts a value of the type into an object. -/
def boxActions : JType → List Act
  | .primitive p => [.box p]
  | _ => []

/-- What takes a value of the type out of an object. -/
def unboxActions : JType → List Act
  | .primitive p => [.cast p.boxed.internal, .unbox p]
  | t => castActions t

theorem performs_box (t : JType) : Performs env (box t) (boxActions t) := by
  intro b b' h
  cases t with
  | void => cases h
  | primitive p =>
    have read := MethodDescriptor.ofText_descriptor (spelled_box p)
    refine performs_invoke (a := .box p) (by decide) (by decide) ?_ ?_ rfl b b' h
    · simp only [callAction?, if_neg (show Opcode.invokestatic ≠ .invokespecial by decide), read,
        if_true]
      cases p <;> rfl
    · cases p <;> rfl
  | _ => exact Performs.pure b b' h

theorem performs_unbox (t : JType) : Performs env (unbox t) (unboxActions t) := by
  cases t with
  | void =>
    intro b b' h
    cases h
  | primitive p =>
    have read := MethodDescriptor.ofText_descriptor (spelled_unbox p)
    have cast : castActions (.reference p.boxed) = [.cast p.boxed.internal] := by cases p <;> rfl
    have first : Performs env (checkcast (.reference p.boxed)) [.cast p.boxed.internal] :=
      cast ▸ performs_checkcast _
    refine first.bind (performs_invoke (a := .unbox p) (by decide) (by decide) ?_ rfl ?_)
    · simp only [callAction?, if_neg (show Opcode.invokevirtual ≠ .invokespecial by decide),
        if_neg (show Opcode.invokevirtual ≠ .invokestatic by decide), read, if_true]
      cases p <;> rfl
    · cases p <;> rfl
  | reference name => exact performs_checkcast (.reference name)
  | array n element => exact performs_checkcast (.array n element)

end Build

end Weft
