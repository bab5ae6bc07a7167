import Mathlib.Tactic.IntervalCases
import Weft.Code.Builder
import Weft.Proofs.ClassFile.Growth
import Weft.Proofs.Code.Instructions

/-!
# What building writes

`Builder.Wrote b b' ops` says that the steps from `b` to `b'` wrote the instructions `ops` behind
those of `b`, without labels and handlers, and added constants to the pool. Each step of building
that needs no label writes certain instructions; composed steps write those of their parts one
behind the other.
-/

namespace Weft

/-- An instruction without targets whose constant the pool has. -/
structure Instruction.Straight (p : Pool) (i : Instruction) : Prop where
  shaped : i.WellShaped
  targets : i.targets = []
  constant : ∀ index, i.constantIndex? = some index → ∃ c, c ≠ .unusable ∧ p.Holds index c

theorem Instruction.Straight.mono {p q : Pool} {i : Instruction} (h : i.Straight p)
    (grown : p.Extends q) : i.Straight q where
  shaped := h.shaped
  targets := h.targets
  constant index named := (h.constant index named).imp fun _ ⟨usable, held⟩ =>
    ⟨usable, held.mono grown⟩

namespace Builder

/-- What the steps between two states of building wrote. -/
structure Wrote (b b' : Builder) (ops : List Instruction) : Prop where
  pool : b.pool.GrowsTo b'.pool
  code : b'.written = (ops.map .op).reverse ++ b.written
  handlers : b'.handlers = b.handlers
  straight : b.pool.Sound → ∀ i ∈ ops, i.Straight b'.pool
  /-- No instruction needs more than six constants. -/
  few : b'.pool.size ≤ b.pool.size + 6 * ops.length

namespace Wrote

variable {b b' b'' : Builder} {ops ops' : List Instruction}

theorem refl (b : Builder) : b.Wrote b [] where
  pool := .refl _
  code := rfl
  handlers := rfl
  straight _ _ mem := nomatch mem
  few := Nat.le_refl _

theorem trans (h : b.Wrote b' ops) (h' : b'.Wrote b'' ops') : b.Wrote b'' (ops ++ ops') where
  pool := h.pool.trans h'.pool
  code := by rw [h'.code, h.code, List.map_append, List.reverse_append, List.append_assoc]
  handlers := h'.handlers.trans h.handlers
  straight sound i mem := by
    rcases List.mem_append.1 mem with mem | mem
    · exact (h.straight sound i mem).mono h'.pool.keeps
    · exact h'.straight (h.pool.sound sound) i mem
  few := by
    have first := h.few
    have second := h'.few
    rw [List.length_append]
    omega

end Wrote

theorem le_max (m n : UInt16) : m ≤ max m n ∧ n ≤ max m n := by
  rcases UInt16.le_total m n with le | le
  · rw [show max m n = n from if_pos le]
    exact ⟨le, UInt16.le_refl n⟩
  · rw [show max m n = m from ite_eq_right_iff.2 fun le' => UInt16.le_antisymm le le']
    exact ⟨UInt16.le_refl m, le⟩

end Builder

namespace Build

variable {α β : Type} {b b' : Builder}

/-! ## Single instructions -/

/-- An instruction is written if what it takes is on the stack. -/
theorem emit_eq_ok {opcode : Opcode} {operand : Operand} {pops pushes : UInt16} :
    emit opcode operand pops pushes b = .ok () b' ↔
      pops ≤ b.depth ∧ b' = { b with
        written := .op ⟨opcode, operand⟩ :: b.written
        depth := b.depth - pops + pushes
        maxDepth := max b.maxDepth (b.depth - pops + pushes)
        labelDepths := noteDepth (b.depth - pops + pushes) b.labelDepths operand.targets
        reachable := !opcode.endsFlow } := by
  unfold emit
  rw [step_get_bind]
  dsimp only
  split
  · rename_i short
    exact ⟨nofun, fun h => absurd short (UInt16.not_lt.2 h.1)⟩
  · rename_i enough
    constructor
    · intro h
      cases h
      exact ⟨UInt16.not_lt.1 enough, rfl⟩
    · rintro ⟨-, rfl⟩
      rfl

theorem emit_wrote {opcode : Opcode} {operand : Operand} {pops pushes : UInt16}
    (h : emit opcode operand pops pushes b = .ok () b')
    (straight : b.pool.Sound → (⟨opcode, operand⟩ : Instruction).Straight b.pool) :
    b.Wrote b' [⟨opcode, operand⟩] ∧ b'.pool = b.pool := by
  obtain ⟨-, rfl⟩ := emit_eq_ok.1 h
  refine ⟨⟨.refl _, rfl, rfl, fun sound i mem => ?_, Nat.le_add_right _ _⟩, rfl⟩
  rw [List.mem_singleton.1 mem]
  exact straight sound

/-- An instruction without targets and without a constant. -/
theorem straight_plain {p : Pool} {opcode : Opcode} {operand : Operand}
    (kind : opcode.operandKind ∈ operand.kinds) (plain : opcode.isForm = false)
    (targets : operand.targets = []) (constant : operand.constantIndex? = none)
    (ranged : operand.isEmptyTable = false) :
    (⟨opcode, operand⟩ : Instruction).Straight p where
  shaped := ⟨kind, plain, ranged⟩
  targets := targets
  constant index named := by
    have := constant.symm.trans named
    cases this

theorem op_wrote {opcode : Opcode} {pops pushes : UInt16} (h : op opcode pops pushes b = .ok () b')
    (kind : opcode.operandKind = .none) (plain : opcode.isForm = false) :
    b.Wrote b' [⟨opcode, .none⟩] :=
  (emit_wrote h fun _ => straight_plain (by simp [Operand.kinds, kind]) plain rfl rfl rfl).1

theorem onPool_eq_ok {add : StateM Pool α} {a : α} (h : onPool add b = .ok a b') :
    a = (add b.pool).1 ∧ b' = { b with pool := (add b.pool).2 } := by
  cases h
  exact ⟨rfl, rfl⟩

/-- An instruction with the constant that an addition to the pool answers. -/
theorem constant_wrote {opcode : Opcode} {operand : UInt16 → Operand} {pops pushes : UInt16}
    {add : StateM Pool UInt16} {P : Pool → UInt16 → Prop}
    (h : (onPool add >>= fun index => emit opcode (operand index) pops pushes) b = .ok () b')
    (grows : Grows add) (few : AddsAtMost 6 add) (holds : ∀ p : Pool, p.Sound → P (add p).2 (add p).1)
    (usable : ∀ p index, P p index → ∃ c, c ≠ .unusable ∧ p.Holds index c)
    (kind : ∀ index, opcode.operandKind ∈ (operand index).kinds) (plain : opcode.isForm = false)
    (targets : ∀ index, (operand index).targets = [])
    (named : ∀ index, (operand index).constantIndex? = some index)
    (ranged : ∀ index, (operand index).isEmptyTable = false) :
    ∃ index, b.Wrote b' [⟨opcode, operand index⟩] ∧ (b.pool.Sound → P b'.pool index) := by
  obtain ⟨index, b₁, added, h⟩ := step_bind_eq_ok.1 h
  obtain ⟨rfl, rfl⟩ := onPool_eq_ok added
  obtain ⟨-, rfl⟩ := emit_eq_ok.1 h
  refine ⟨_, ⟨grows b.pool, rfl, rfl, fun sound i mem => ?_, few b.pool⟩, holds b.pool⟩
  rw [List.mem_singleton.1 mem]
  refine ⟨⟨kind _, plain, ranged _⟩, targets _, fun index found => ?_⟩
  cases (named _).symm.trans found
  exact usable _ _ (holds b.pool sound)

theorem pushNull_wrote (h : pushNull b = .ok () b') : b.Wrote b' [⟨.aconstNull, .none⟩] :=
  op_wrote h (by decide) (by decide)

theorem loadThis_wrote (h : loadThis b = .ok () b') : b.Wrote b' [⟨.aload0, .none⟩] :=
  op_wrote h (by decide) (by decide)

theorem dup_wrote (h : dup b = .ok () b') : b.Wrote b' [⟨.dup, .none⟩] :=
  op_wrote h (by decide) (by decide)

theorem arrayStore_wrote (h : arrayStore b = .ok () b') : b.Wrote b' [⟨.aastore, .none⟩] :=
  op_wrote h (by decide) (by decide)

theorem arrayLoad_wrote (h : arrayLoad b = .ok () b') : b.Wrote b' [⟨.aaload, .none⟩] :=
  op_wrote h (by decide) (by decide)

theorem popObject_wrote (h : popValue .object b = .ok () b') : b.Wrote b' [⟨.pop, .none⟩] :=
  op_wrote h (by decide) (by decide)

/-! ## Instructions with constants -/

/-- An instruction with a class. -/
theorem class_wrote {opcode : Opcode} {pops pushes : UInt16} {name : String}
    (h : (do emit opcode (.constant (← onPool (Pool.addClass name))) pops pushes : Build Unit) b =
      .ok () b')
    (kind : opcode.operandKind = .constant2) (plain : opcode.isForm = false) :
    ∃ index, b.Wrote b' [⟨opcode, .constant index⟩] ∧
      (b.pool.Sound → b'.pool.HoldsClass index name) :=
  constant_wrote (P := fun p index => p.HoldsClass index name) h (Pool.grows_addClass name)
    ((Pool.addClass_adds name).mono (by decide)) (fun _ sound => Pool.holds_addClass sound name)
    (fun _ _ ⟨text, held, _⟩ => ⟨.classRef text, by simp, held⟩)
    (fun _ => by simp [Operand.kinds, kind]) plain (fun _ => rfl) (fun _ => rfl) fun _ => rfl

theorem newObject_wrote {name : ClassName} (h : newObject name b = .ok () b') :
    ∃ index, b.Wrote b' [⟨.newObject, .constant index⟩] ∧
      (b.pool.Sound → b'.pool.HoldsClass index name.internal) :=
  class_wrote h (by decide) (by decide)

theorem newObjectArray_wrote (h : newArray .object b = .ok () b') :
    ∃ index, b.Wrote b' [⟨.anewarray, .constant index⟩] ∧
      (b.pool.Sound → b'.pool.HoldsClass index ClassName.object.internal) :=
  class_wrote h (by decide) (by decide)

/-- A cast to an object needs no instruction. -/
theorem checkcast_wrote {t : JType} (h : checkcast t b = .ok () b') :
    (t = .object ∧ b.Wrote b' []) ∨ (t ≠ .object ∧ ∃ name index, t.classOperand? = some name ∧
      b.Wrote b' [⟨.checkcast, .constant index⟩] ∧
        (b.pool.Sound → b'.pool.HoldsClass index name)) := by
  unfold checkcast at h
  split at h
  · rename_i object
    cases h
    exact .inl ⟨object, .refl b⟩
  · rename_i other
    cases operand : t.classOperand? with
    | none =>
      rw [operand] at h
      cases h
    | some name =>
      rw [operand] at h
      obtain ⟨index, wrote, held⟩ := class_wrote h (by decide) (by decide)
      exact .inr ⟨other, name, index, rfl, wrote, held⟩

theorem field_wrote {opcode : Opcode} {owner : ClassName} {name : String} {t : JType}
    {pops pushes : UInt16} (h : field opcode owner name t pops pushes b = .ok () b')
    (kind : opcode.operandKind = .constant2) (plain : opcode.isForm = false) :
    ∃ index, b.Wrote b' [⟨opcode, .constant index⟩] ∧
      (b.pool.Sound → b'.pool.HoldsField index owner.internal name t.descriptor) :=
  constant_wrote (P := fun p index => p.HoldsField index owner.internal name t.descriptor) h
    (Pool.grows_addFieldRef _ _ _) (Pool.addFieldRef_adds _ _ _)
    (fun _ sound => Pool.holds_addFieldRef sound _ _ _)
    (fun _ _ ⟨c, nat, held, _⟩ => ⟨.fieldRef c nat, by simp, held⟩)
    (fun _ => by simp [Operand.kinds, kind]) plain (fun _ => rfl) (fun _ => rfl) fun _ => rfl

theorem usable_of_holdsMethod {p : Pool} {index : UInt16} {owner name descriptor : String}
    {isInterface : Bool} (h : p.HoldsMethod index owner name descriptor isInterface) :
    ∃ c, c ≠ .unusable ∧ p.Holds index c := by
  obtain ⟨c, nat, held, -⟩ := h
  exact ⟨_, by split <;> simp, held⟩

/-- A call other than of an interface method. -/
theorem invoke_wrote {opcode : Opcode} {owner : ClassName} {name : String} {d : MethodDescriptor}
    {isInterface : Bool} (h : invoke opcode owner name d isInterface b = .ok () b')
    (kind : opcode.operandKind = .constant2) (plain : opcode.isForm = false) :
    ∃ index, b.Wrote b' [⟨opcode, .constant index⟩] ∧ (b.pool.Sound →
      b'.pool.HoldsMethod index owner.internal name d.descriptor isInterface) := by
  have other : opcode ≠ .invokeinterface := by
    rintro rfl
    cases kind
  unfold invoke at h
  simp only [if_neg other] at h
  exact constant_wrote
    (P := fun p index => p.HoldsMethod index owner.internal name d.descriptor isInterface) h
    (Pool.grows_addMethodRef _ _ _ _) (Pool.addMethodRef_adds _ _ _ _)
    (fun _ sound => Pool.holds_addMethodRef sound _ _ _ _) (fun _ _ => usable_of_holdsMethod)
    (fun _ => by simp [Operand.kinds, kind]) plain (fun _ => rfl) (fun _ => rfl) fun _ => rfl

theorem invokeVirtual_wrote {owner : ClassName} {name : String} {d : MethodDescriptor}
    (h : invokeVirtual owner name d b = .ok () b') :
    ∃ index, b.Wrote b' [⟨.invokevirtual, .constant index⟩] ∧ (b.pool.Sound →
      b'.pool.HoldsMethod index owner.internal name d.descriptor false) :=
  invoke_wrote h (by decide) (by decide)

theorem invokeStatic_wrote {owner : ClassName} {name : String} {d : MethodDescriptor}
    (h : invokeStatic owner name d b = .ok () b') :
    ∃ index, b.Wrote b' [⟨.invokestatic, .constant index⟩] ∧ (b.pool.Sound →
      b'.pool.HoldsMethod index owner.internal name d.descriptor false) :=
  invoke_wrote h (by decide) (by decide)

theorem invokeInterface_wrote {owner : ClassName} {name : String} {d : MethodDescriptor}
    (h : invokeInterface owner name d b = .ok () b') :
    ∃ index count, b.Wrote b' [⟨.invokeinterface, .invokeInterface index count⟩] ∧
      (b.pool.Sound → b'.pool.HoldsMethod index owner.internal name d.descriptor true) := by
  unfold invokeInterface invoke at h
  simp only [if_true, if_neg (show Opcode.invokeinterface ≠ .invokestatic by decide)] at h
  by_cases many : 255 < d.paramSlots + 1
  · simp only [if_pos many] at h
    obtain ⟨index, b₁, -, h⟩ := step_bind_eq_ok.1 h
    cases h
  · simp only [if_neg many] at h
    obtain ⟨index, wrote, held⟩ := constant_wrote
      (P := fun p index => p.HoldsMethod index owner.internal name d.descriptor true) h
      (Pool.grows_addMethodRef _ _ _ _) (Pool.addMethodRef_adds _ _ _ _)
      (fun _ sound => Pool.holds_addMethodRef sound _ _ _ _) (fun _ _ => usable_of_holdsMethod)
      (fun _ => List.mem_singleton.2 (by decide)) (by decide) (fun _ => rfl) (fun _ => rfl)
      fun _ => rfl
    exact ⟨index, _, wrote, held⟩

theorem ldc_kind : Opcode.ldc.operandKind = .constant1 := by decide

theorem pushString_wrote {text : String} (h : pushString text b = .ok () b') :
    ∃ index, b.Wrote b' [⟨.ldc, .constant index⟩] ∧
      (b.pool.Sound → b'.pool.HoldsString index text) :=
  constant_wrote (P := fun p index => p.HoldsString index text) h (Pool.grows_addString text)
    ((Pool.addString_adds text).mono (by decide)) (fun _ sound => Pool.holds_addString sound text)
    (fun _ _ ⟨s, held, _⟩ => ⟨.string s, by simp, held⟩)
    (fun _ => by simp [Operand.kinds, ldc_kind]) (by decide) (fun _ => rfl) (fun _ => rfl) fun _ => rfl

theorem literal_wrote {opcode : Opcode} {pops pushes : UInt16} {value : Literal} {c : Constant}
    (h : (do emit opcode (.constant (← onPool (Pool.addLiteral value))) pops pushes : Build Unit) b
      = .ok () b') (add : Pool.addLiteral value = Pool.intern c) (usable : c ≠ .unusable)
    (kind : opcode.operandKind ∈ [OperandKind.constant1, .constant2])
    (plain : opcode.isForm = false) :
    ∃ index, b.Wrote b' [⟨opcode, .constant index⟩] ∧ (b.pool.Sound → b'.pool.Holds index c) := by
  rw [add] at h
  exact constant_wrote (P := fun p index => p.Holds index c) h (Pool.grows_intern usable)
    ((Pool.intern_adds_two c).mono (by decide)) (fun _ sound => (sound.intern usable).2)
    (fun _ _ held => ⟨c, usable, held⟩) (fun _ => kind) plain (fun _ => rfl) (fun _ => rfl)
    fun _ => rfl

/-- An instruction that pushes the number. -/
inductive PushesInt (p : Pool) (value : Int32) : Instruction → Prop
  | iconst {opcode : Opcode} (h : Opcode.iconst? value = some opcode) :
    PushesInt p value ⟨opcode, .none⟩
  | bipush (least : -128 ≤ value) (most : value ≤ 127) :
    PushesInt p value ⟨.bipush, .byte value.toInt8⟩
  | sipush (least : -32768 ≤ value) (most : value ≤ 32767) :
    PushesInt p value ⟨.sipush, .short value.toInt16⟩
  | ldc {index : UInt16} (h : p.Holds index (.integer value)) :
    PushesInt p value ⟨.ldc, .constant index⟩

theorem iconst?_eq_some {value : Int32} {opcode : Opcode}
    (h : Opcode.iconst? value = some opcode) : opcode.operandKind = .none ∧
      opcode.isForm = false ∧ ∃ n : Nat, n ≤ 6 ∧ opcode.byte = UInt8.ofNat (2 + n) ∧
        value = Int32.ofInt (n - 1) := by
  unfold Opcode.iconst? at h
  split at h
  · rename_i bounds
    obtain ⟨least, most⟩ := by simpa [Int32.le_iff_toInt_le] using bounds
    obtain ⟨n, few, same⟩ : ∃ n : Nat, n ≤ 6 ∧ value = Int32.ofInt (n - 1) := by
      refine ⟨(value.toInt + 1).toNat, by omega, ?_⟩
      rw [show (((value.toInt + 1).toNat : Int) - 1) = value.toInt by omega, Int32.ofInt_toInt]
    subst same
    interval_cases n <;> cases h <;> exact ⟨by decide, by decide, _, by decide, rfl, rfl⟩
  · cases h

theorem pushInt_wrote {value : Int32} (h : pushInt value b = .ok () b') :
    ∃ i, b.Wrote b' [i] ∧ (b.pool.Sound → PushesInt b'.pool value i) := by
  unfold pushInt at h
  cases short : Opcode.iconst? value with
  | some opcode =>
    rw [short] at h
    obtain ⟨kind, plain, -⟩ := iconst?_eq_some short
    exact ⟨_, op_wrote h kind plain, fun _ => .iconst short⟩
  | none =>
    rw [short] at h
    dsimp only at h
    split at h
    · rename_i bounds
      obtain ⟨least, most⟩ := by simpa using bounds
      have shaped {p : Pool} : (⟨.bipush, .byte value.toInt8⟩ : Instruction).Straight p :=
        straight_plain (List.mem_singleton.2 (by decide)) (by decide) rfl rfl rfl
      exact ⟨_, (emit_wrote h fun _ => shaped).1, fun _ => .bipush least most⟩
    · split at h
      · rename_i bounds
        obtain ⟨least, most⟩ := by simpa using bounds
        have shaped {p : Pool} : (⟨.sipush, .short value.toInt16⟩ : Instruction).Straight p :=
          straight_plain (List.mem_singleton.2 (by decide)) (by decide) rfl rfl rfl
        exact ⟨_, (emit_wrote h fun _ => shaped).1, fun _ => .sipush least most⟩
      · obtain ⟨index, wrote, held⟩ := literal_wrote h rfl (by simp) (by decide) (by decide)
        exact ⟨_, wrote, fun sound => .ldc (held sound)⟩

/-! ## Values of a type -/

/-- What holds of one opcode for each kind of value holds of that for the type. -/
theorem byKind_elim {P : Opcode → Prop} {int long float double reference : Opcode} (hi : P int)
    (hl : P long) (hf : P float) (hd : P double) (hr : P reference) (t : JType) :
    P (byKind int long float double reference t) := by
  unfold byKind
  split <;> assumption

theorem byKind_plain {kind : OperandKind} {int long float double reference : Opcode}
    (plain : ∀ op ∈ [int, long, float, double, reference],
      op.operandKind = kind ∧ op.isForm = false) (t : JType) :
    (byKind int long float double reference t).operandKind = kind ∧
      (byKind int long float double reference t).isForm = false := by
  simp only [List.forall_mem_cons, List.not_mem_nil, false_implies, implies_true, and_true] at plain
  obtain ⟨hi, hl, hf, hd, hr⟩ := plain
  exact byKind_elim (P := fun op => op.operandKind = kind ∧ op.isForm = false) hi hl hf hd hr t

theorem useLocal_wrote {t : JType} {slot : UInt16} (h : useLocal t slot b = .ok () b') :
    b.Wrote b' [] := by
  cases h
  exact ⟨.refl _, rfl, rfl, (fun _ _ mem => nomatch mem), Nat.le_refl _⟩

theorem load_wrote {t : JType} {slot : UInt16} (h : load t slot b = .ok () b') :
    t.isVoid = false ∧
      b.Wrote b' [⟨byKind .iload .lload .fload .dload .aload t, .local slot⟩] := by
  unfold load at h
  split at h
  · cases h
  · rename_i other
    obtain ⟨⟨⟩, b₁, used, h⟩ := step_bind_eq_ok.1 h
    obtain ⟨laid, plain⟩ :=
      @byKind_plain .local .iload .lload .fload .dload .aload (by decide +kernel) t
    exact ⟨by simpa using other, (useLocal_wrote used).trans (emit_wrote h fun _ =>
      straight_plain (List.mem_singleton.2 laid) plain rfl rfl rfl).1⟩

theorem store_wrote {t : JType} {slot : UInt16} (h : store t slot b = .ok () b') :
    b.Wrote b' [⟨byKind .istore .lstore .fstore .dstore .astore t, .local slot⟩] := by
  unfold store at h
  split at h
  · cases h
  · obtain ⟨⟨⟩, b₁, used, h⟩ := step_bind_eq_ok.1 h
    obtain ⟨laid, plain⟩ :=
      @byKind_plain .local .istore .lstore .fstore .dstore .astore (by decide +kernel) t
    exact (useLocal_wrote used).trans (emit_wrote h fun _ =>
      straight_plain (List.mem_singleton.2 laid) plain rfl rfl rfl).1

/-- A reference needs no box. -/
theorem box_wrote {t : JType} (h : box t b = .ok () b') : t.isVoid = false ∧
    ((t.isReference = true ∧ b.Wrote b' []) ∨ ∃ p index, t = .primitive p ∧
      b.Wrote b' [⟨.invokestatic, .constant index⟩] ∧ (b.pool.Sound →
        b'.pool.HoldsMethod index p.boxed.internal "valueOf"
          (MethodDescriptor.descriptor ⟨[t], .reference p.boxed⟩) false)) := by
  unfold box at h
  cases t with
  | void => cases h
  | primitive p =>
    obtain ⟨index, wrote, held⟩ := invokeStatic_wrote h
    exact ⟨rfl, .inr ⟨p, index, rfl, wrote, held⟩⟩
  | reference name =>
    cases h
    exact ⟨rfl, .inl ⟨rfl, .refl b⟩⟩
  | array n element =>
    cases h
    exact ⟨rfl, .inl ⟨rfl, .refl b⟩⟩

theorem unbox_wrote {t : JType} (h : unbox t b = .ok () b') :
    (t.isReference = true ∧ checkcast t b = .ok () b') ∨ ∃ p index index', t = .primitive p ∧
      b.Wrote b' [⟨.checkcast, .constant index⟩, ⟨.invokevirtual, .constant index'⟩] ∧
        (b.pool.Sound → b'.pool.HoldsClass index p.boxed.internal ∧
          b'.pool.HoldsMethod index' p.boxed.internal p.unboxMethod
            (MethodDescriptor.descriptor ⟨[], t⟩) false) := by
  unfold unbox at h
  cases t with
  | void => cases h
  | primitive p =>
    obtain ⟨⟨⟩, b₁, cast, h⟩ := step_bind_eq_ok.1 h
    obtain ⟨index', wrote', held'⟩ := invokeVirtual_wrote h
    obtain ⟨object, -⟩ | ⟨-, name, index, operand, wrote, held⟩ := checkcast_wrote cast
    · exact absurd object (by cases p <;> decide)
    · cases operand
      exact .inr ⟨p, index, index', rfl, wrote.trans wrote', fun sound =>
        ⟨(held sound).mono wrote'.pool.keeps, held' (wrote.pool.sound sound)⟩⟩
  | reference name => exact .inl ⟨rfl, h⟩
  | array n element => exact .inl ⟨rfl, h⟩

theorem returnValue_wrote {t : JType} (h : returnValue t b = .ok () b') :
    b.Wrote b' [⟨if t.isVoid then .voidReturn
      else byKind .ireturn .lreturn .freturn .dreturn .areturn t, .none⟩] := by
  unfold returnValue at h
  split at h
  · rename_i void
    rw [if_pos void]
    exact op_wrote h (by decide) (by decide)
  · rename_i other
    rw [if_neg other]
    obtain ⟨laid, plain⟩ :=
      @byKind_plain .none .ireturn .lreturn .freturn .dreturn .areturn (by decide +kernel) t
    exact op_wrote h laid plain

/-! ## Steps that write some instructions -/

/-- The step writes instructions without labels and handlers. -/
def Straight (x : Build α) : Prop := ∀ b a b', x b = .ok a b' → ∃ ops, b.Wrote b' ops

namespace Straight

theorem pure (a : α) : Straight (Pure.pure a : Build α) := by
  intro b a' b' h
  obtain ⟨-, rfl⟩ := step_pure_eq_ok.1 h
  exact ⟨[], .refl b⟩

theorem bind {x : Build α} {f : α → Build β} (hx : Straight x) (hf : ∀ a, Straight (f a)) :
    Straight (x >>= f) := by
  intro b c b'' h
  obtain ⟨a, b', first, second⟩ := step_bind_eq_ok.1 h
  obtain ⟨ops, wrote⟩ := hx b a b' first
  obtain ⟨ops', wrote'⟩ := hf a b' c b'' second
  exact ⟨ops ++ ops', wrote.trans wrote'⟩

theorem ite {c : Prop} [Decidable c] {x y : Build α} (hx : Straight x) (hy : Straight y) :
    Straight (if c then x else y) := by
  split <;> assumption

theorem forM {as : List β} {f : β → Build PUnit} (each : ∀ a, Straight (f a)) :
    Straight (as.forM f) := by
  induction as with
  | nil => exact pure _
  | cons a as ih => exact (each a).bind fun _ => ih

end Straight

theorem straight_pushNull : Straight pushNull := fun _ _ _ h => ⟨_, pushNull_wrote h⟩

theorem straight_loadThis : Straight loadThis := fun _ _ _ h => ⟨_, loadThis_wrote h⟩

theorem straight_dup : Straight dup := fun _ _ _ h => ⟨_, dup_wrote h⟩

theorem straight_popObject : Straight (popValue .object) := fun _ _ _ h => ⟨_, popObject_wrote h⟩

theorem straight_arrayStore : Straight arrayStore := fun _ _ _ h => ⟨_, arrayStore_wrote h⟩

theorem straight_arrayLoad : Straight arrayLoad := fun _ _ _ h => ⟨_, arrayLoad_wrote h⟩

theorem straight_newObject (name : ClassName) : Straight (newObject name) := fun _ _ _ h =>
  have ⟨_, wrote, _⟩ := newObject_wrote h
  ⟨_, wrote⟩

theorem straight_newObjectArray : Straight (newArray .object) := fun _ _ _ h =>
  have ⟨_, wrote, _⟩ := newObjectArray_wrote h
  ⟨_, wrote⟩

theorem straight_checkcast (t : JType) : Straight (checkcast t) := by
  intro b _ b' h
  obtain ⟨-, wrote⟩ | ⟨-, _, _, -, wrote, -⟩ := checkcast_wrote h
  · exact ⟨_, wrote⟩
  · exact ⟨_, wrote⟩

theorem straight_field {opcode : Opcode} (kind : opcode.operandKind = .constant2)
    (plain : opcode.isForm = false) (owner : ClassName) (name : String) (t : JType)
    (pops pushes : UInt16) : Straight (field opcode owner name t pops pushes) := fun _ _ _ h =>
  have ⟨_, wrote, _⟩ := field_wrote h kind plain
  ⟨_, wrote⟩

theorem straight_invoke {opcode : Opcode} (kind : opcode.operandKind = .constant2)
    (plain : opcode.isForm = false) (owner : ClassName) (name : String) (d : MethodDescriptor)
    (isInterface : Bool) : Straight (invoke opcode owner name d isInterface) := fun _ _ _ h =>
  have ⟨_, wrote, _⟩ := invoke_wrote h kind plain
  ⟨_, wrote⟩

theorem straight_invokeStatic (owner : ClassName) (name : String) (d : MethodDescriptor) :
    Straight (invokeStatic owner name d) := straight_invoke (by decide) (by decide) _ _ _ _

theorem straight_invokeSpecial (owner : ClassName) (name : String) (d : MethodDescriptor) :
    Straight (invokeSpecial owner name d) := straight_invoke (by decide) (by decide) _ _ _ _

theorem straight_invokeVirtual (owner : ClassName) (name : String) (d : MethodDescriptor) :
    Straight (invokeVirtual owner name d) := straight_invoke (by decide) (by decide) _ _ _ _

theorem straight_invokeInterface (owner : ClassName) (name : String) (d : MethodDescriptor) :
    Straight (invokeInterface owner name d) := fun _ _ _ h =>
  have ⟨_, _, wrote, _⟩ := invokeInterface_wrote h
  ⟨_, wrote⟩

theorem straight_pushString (text : String) : Straight (pushString text) := fun _ _ _ h =>
  have ⟨_, wrote, _⟩ := pushString_wrote h
  ⟨_, wrote⟩

theorem straight_pushInt (value : Int32) : Straight (pushInt value) := fun _ _ _ h =>
  have ⟨_, wrote, _⟩ := pushInt_wrote h
  ⟨_, wrote⟩

theorem straight_pushLiteral (value : Literal) : Straight (pushLiteral value) := by
  intro b _ b' h
  cases value with
  | int v => exact straight_pushInt v b _ b' h
  | string text => exact straight_pushString text b _ b' h
  | long v =>
    obtain ⟨index, wrote, -⟩ := literal_wrote h rfl (by simp) (by decide) (by decide)
    exact ⟨_, wrote⟩
  | float bits =>
    obtain ⟨index, wrote, -⟩ := literal_wrote h rfl (by simp) (by decide) (by decide)
    exact ⟨_, wrote⟩
  | double bits =>
    obtain ⟨index, wrote, -⟩ := literal_wrote h rfl (by simp) (by decide) (by decide)
    exact ⟨_, wrote⟩

theorem straight_load (t : JType) (slot : UInt16) : Straight (load t slot) := fun _ _ _ h =>
  ⟨_, (load_wrote h).2⟩

theorem straight_store (t : JType) (slot : UInt16) : Straight (store t slot) := fun _ _ _ h =>
  ⟨_, store_wrote h⟩

theorem straight_allocateLocal (t : JType) : Straight (allocateLocal t) := by
  intro b _ b' h
  cases h
  exact ⟨[], .refl _, rfl, rfl, (fun _ _ mem => nomatch mem), Nat.le_refl _⟩

theorem straight_box (t : JType) : Straight (box t) := by
  intro b _ b' h
  obtain ⟨-, ⟨-, wrote⟩ | ⟨_, _, -, wrote, -⟩⟩ := box_wrote h
  · exact ⟨_, wrote⟩
  · exact ⟨_, wrote⟩

theorem straight_unbox (t : JType) : Straight (unbox t) := by
  intro b _ b' h
  obtain ⟨-, cast⟩ | ⟨_, _, _, -, wrote, -⟩ := unbox_wrote h
  · exact straight_checkcast t b _ b' cast
  · exact ⟨_, wrote⟩

theorem straight_packEach (ts : List JType) (index : Nat) (slot : UInt16) :
    Straight (packEach ts index slot) := by
  induction ts generalizing index slot with
  | nil => exact .pure _
  | cons t ts ih =>
    exact straight_dup.bind fun _ => (straight_pushInt _).bind fun _ => (straight_load t slot).bind
      fun _ => (straight_box t).bind fun _ => straight_arrayStore.bind fun _ => ih _ _

theorem straight_packArguments (d : MethodDescriptor) (slot : UInt16) :
    Straight (packArguments d slot) :=
  (straight_pushInt _).bind fun _ => straight_newObjectArray.bind fun _ => straight_packEach _ _ _

theorem straight_unpackEach (array : UInt16) (ts : List JType) (index : Nat) :
    Straight (unpackEach array ts index) := by
  induction ts generalizing index with
  | nil => exact .pure _
  | cons t ts ih =>
    exact (straight_load _ _).bind fun _ => (straight_pushInt _).bind fun _ =>
      straight_arrayLoad.bind fun _ => (straight_unbox t).bind fun _ => ih _

theorem straight_unpackArguments (d : MethodDescriptor) (array : UInt16) :
    Straight (unpackArguments d array) := straight_unpackEach _ _ _

theorem throwTop_wrote (h : throwTop b = .ok () b') : b.Wrote b' [⟨.athrow, .none⟩] :=
  op_wrote h (by decide) (by decide)

end Build

/-! ## Bodies -/

theorem Body.build_eq_ok {locals : UInt16} {code : Build Unit} {p q : Pool} {body : Body}
    (h : Body.build locals code p = .ok body q) :
    ∃ b, code (.start p locals) = .ok () b ∧ b.pool = q ∧ body = b.finish locals := by
  unfold Body.build at h
  split at h
  · rename_i b built
    cases h
    exact ⟨b, built, rfl, rfl⟩
  · cases h

/-- The code of a body that is built of straight code is what was written. -/
theorem Builder.Wrote.finish {locals : UInt16} {p : Pool} {b : Builder} {ops : List Instruction}
    (h : (Builder.start p locals).Wrote b ops) : (b.finish locals).code = ops.map .op := by
  simp [Builder.finish, h.code, Builder.start]

end Weft
