import Weft.Proofs.Machine.Resolution
import Weft.Proofs.Weave.Helpers
import Weft.Weave.Library

/-!
# What woven code hands to the bridge

The first argument of each call of the bridge is traced to where it comes from: a constant of the
code or a static field. The trace follows the operand stack through straight code, value by value;
of all other values it only keeps the places. Each step of building that woven code is made of
hands over what its parts hand over, one behind the other.
-/

namespace Weft.Weave

open Machine

/-! ## Tracing -/

/-- Where a value on the stack comes from. -/
inductive Source where
  | text (text : String)
  | field (f : FieldKey)
  /-- An object whose constructor is still to be called, put on a stack of that height. -/
  | fresh (height : Nat)
  | other
  deriving DecidableEq

/-- A call of a method of the bridge, with where its first argument comes from. -/
structure Handing where
  entry : String
  token : Source
  deriving DecidableEq

/-- What an instruction does to the sources on the stack. -/
inductive Effect where
  | replace (pops : Nat) (pushes : List Source)
  | copy
  | make
  | construct
  /-- Calls a method of the bridge with a token and further arguments. -/
  | hand (entry : String) (others : Nat) (pushes : List Source)

/-- The source is no new object. -/
def Source.isSettled : Source → Bool
  | fresh _ => false
  | _ => true

/-- The sources behind an effect, and what it hands over. -/
def Effect.apply : Effect → List Source → Option (List Source × List Handing)
  | replace pops pushes, st =>
    if pops ≤ st.length then some (pushes ++ st.drop pops, []) else none
  | copy, st => st.head?.map fun s => (s :: st, [])
  | make, st => some (.fresh st.length :: st, [])
  -- the arguments of a constructor have been constructed, the object below them has not
  | construct, st =>
    match st.dropWhile Source.isSettled with
    | [] => none
    | s :: rest => some (rest.map fun t => if t = s then .other else t, [])
  | hand entry others pushes, st =>
    st[others]?.map fun s => (pushes ++ st.drop (others + 1), [⟨entry, s⟩])

section Effects

variable (p : Pool)

/-- The sources of what a method of the type answers. -/
def answerSources (t : JType) : List Source := if t.isVoid then [] else [.other]

/-- The effect of an instruction without an operand. -/
def plainEffect? (op : Opcode) : Option Effect :=
  if op = .dup then some .copy
  else if op = .aconstNull ∨ op = .aload0 ∨ (2 ≤ op.byte ∧ op.byte ≤ 8) then
    some (.replace 0 [.other])
  else if op = .nop ∨ op = .voidReturn then some (.replace 0 [])
  else if op = .pop ∨ op ∈ [.ireturn, .lreturn, .freturn, .dreturn, .areturn] then
    some (.replace 1 [])
  else if op = .aastore then some (.replace 3 [])
  else none

/-- The effect of an instruction with a local slot. -/
def slotEffect? (op : Opcode) : Option Effect :=
  if op ∈ [.iload, .lload, .fload, .dload, .aload] then some (.replace 0 [.other])
  else if op ∈ [.istore, .lstore, .fstore, .dstore, .astore] then some (.replace 1 [])
  else none

/-- The effect of a call. -/
def callEffect? (op : Opcode) (owner name descriptor : String) : Option Effect :=
  if op = .invokespecial then if name = "<init>" then some .construct else none
  else
    match MethodDescriptor.ofText descriptor with
    | .error _ => none
    | .ok d =>
      if op = .invokestatic then
        if owner = bridgeClass.internal ∧ d.params ≠ [] then
          some (.hand name (d.params.length - 1) (answerSources d.ret))
        else some (.replace d.params.length (answerSources d.ret))
      else if op = .invokevirtual ∨ op = .invokeinterface then
        some (.replace (d.params.length + 1) (answerSources d.ret))
      else none

/-- The effect of an instruction with a constant. -/
def constantEffect? (op : Opcode) (index : UInt16) : Option Effect :=
  match p.get index with
  | .ok (.classRef _) =>
    if op = .newObject then some .make
    else if op = .anewarray ∨ op = .checkcast then some (.replace 1 [.other])
    else none
  | .ok (.fieldRef owner nat) => do
    let (owner, name, descriptor) ← memberAt? p owner nat
    if op = .getstatic then some (.replace 0 [.field ⟨owner, name, descriptor⟩])
    else if op = .getfield then some (.replace 1 [.other])
    else if op = .putstatic then some (.replace 1 [])
    else if op = .putfield then some (.replace 2 [])
    else none
  | .ok (.methodRef owner nat) | .ok (.interfaceMethodRef owner nat) => do
    let (owner, name, descriptor) ← memberAt? p owner nat
    callEffect? op owner name descriptor
  | .ok (.string text) =>
    if op = .ldc then (p.utf8 text).toOption.map fun s => .replace 0 [.text s] else none
  | .ok _ => if op = .ldc ∨ op = .ldc2W then some (.replace 0 [.other]) else none
  | .error _ => none

/-- The effect of an instruction of straight code. -/
def effect? (i : Instruction) : Option Effect :=
  match i.operand with
  | .none => plainEffect? i.opcode
  | .byte _ | .short _ => some (.replace 0 [.other])
  | .local _ => slotEffect? i.opcode
  | .constant index | .invokeInterface index _ => constantEffect? p i.opcode index
  | _ => none

/-- The sources behind straight code, and what it hands over. -/
def trace : List Instruction → List Source → Option (List Source × List Handing)
  | [], st => some (st, [])
  | i :: rest, st => do
    let (st, first) ← (← effect? p i).apply st
    let (st, others) ← trace rest st
    return (st, first ++ others)

end Effects

section Trace

variable {p : Pool} {i : Instruction} {e : Effect} {is js : List Instruction}
  {st st' st'' args pushes : List Source} {hs hs' : List Handing}

theorem trace_nil (p : Pool) (st : List Source) : trace p [] st = some (st, []) := rfl

theorem trace_single (effect : effect? p i = some e) (applied : e.apply st = some (st', hs)) :
    trace p [i] st = some (st', hs) := by
  simp [trace, effect, applied]

theorem trace_append (first : trace p is st = some (st', hs))
    (second : trace p js st' = some (st'', hs')) :
    trace p (is ++ js) st = some (st'', hs ++ hs') := by
  induction is generalizing st hs with
  | nil =>
    cases first
    exact second
  | cons i is ih =>
    simp only [trace, Option.bind_eq_bind, Option.bind_eq_some_iff, Option.pure_def] at first
    obtain ⟨e, effect, ⟨st₁, hs₁⟩, applied, ⟨st₂, hs₂⟩, rest, same⟩ := first
    cases same
    simp [trace, effect, applied, ih rest]

theorem apply_replace {pops : Nat} (args : List Source) (pushes st : List Source)
    (count : args.length = pops) :
    (Effect.replace pops pushes).apply (args ++ st) = some (pushes ++ st, []) := by
  subst count
  simp [Effect.apply]

theorem apply_hand {others : Nat} (entry : String) (args : List Source) (token : Source)
    (pushes st : List Source) (count : args.length = others) :
    (Effect.hand entry others pushes).apply (args ++ token :: st) =
      some (pushes ++ st, [⟨entry, token⟩]) := by
  subst count
  simp [Effect.apply, ← List.drop_drop]

/-- The constructor is that of the topmost object that is new; there is one copy of it below. -/
theorem apply_construct {n : Nat} {args st : List Source} (arguments : args.all Source.isSettled)
    (settled : st.all Source.isSettled) :
    Effect.construct.apply (args ++ .fresh n :: .fresh n :: st) = some (.other :: st, []) := by
  have dropped : (args ++ .fresh n :: .fresh n :: st).dropWhile Source.isSettled =
      .fresh n :: .fresh n :: st := by
    rw [List.dropWhile_append_of_pos fun s mem => List.all_eq_true.1 arguments s mem]
    rfl
  have kept : st.map (fun t => if t = .fresh n then .other else t) = st := by
    refine (List.map_congr_left fun s mem => if_neg ?_).trans (List.map_id st)
    rintro rfl
    cases List.all_eq_true.1 settled _ mem
  simp [Effect.apply, dropped, kept]

end Trace

/-! ## Constants -/

section Constants

variable {p : Pool} {index : UInt16} {op : Opcode}

theorem effect_class {name : String} (h : p.HoldsClass index name) (small : p.size < 65536) :
    effect? p ⟨op, .constant index⟩ =
      if op = .newObject then some .make
      else if op = .anewarray ∨ op = .checkcast then some (.replace 1 [.other])
      else none := by
  obtain ⟨-, text, got⟩ := classAt?_of_holds h small
  simp only [effect?, constantEffect?, got]

theorem effect_field {owner name descriptor : String}
    (h : p.HoldsField index owner name descriptor) (small : p.size < 65536) :
    effect? p ⟨op, .constant index⟩ =
      if op = .getstatic then some (.replace 0 [.field ⟨owner, name, descriptor⟩])
      else if op = .getfield then some (.replace 1 [.other])
      else if op = .putstatic then some (.replace 1 [])
      else if op = .putfield then some (.replace 2 [])
      else none := by
  obtain ⟨c, nat, found, owned, typed⟩ := h
  simp only [effect?, constantEffect?, found.get (by simp) small.le, memberAt?_of_holds owned typed small]
  rfl

theorem constantEffect_method {owner name descriptor : String} {isInterface : Bool}
    (h : p.HoldsMethod index owner name descriptor isInterface) (small : p.size < 65536) :
    constantEffect? p op index = callEffect? op owner name descriptor := by
  obtain ⟨c, nat, found, owned, typed⟩ := h
  have member := memberAt?_of_holds owned typed small
  cases isInterface with
  | true =>
    have found : p.Holds index (.interfaceMethodRef c nat) := found
    simp only [constantEffect?, found.get (by simp) small.le, member]
    rfl
  | false =>
    have found : p.Holds index (.methodRef c nat) := found
    simp only [constantEffect?, found.get (by simp) small.le, member]
    rfl

theorem effect_string {text : String} (h : p.HoldsString index text) (small : p.size < 65536) :
    effect? p ⟨.ldc, .constant index⟩ = some (.replace 0 [.text text]) := by
  obtain ⟨t, found, named⟩ := h
  simp only [effect?, constantEffect?, found.get (by simp) small.le, named.utf8 small.le]
  rfl

theorem effect_int {v : Int32} {i : Instruction} (h : Build.PushesInt p v i)
    (small : p.size < 65536) : effect? p i = some (.replace 0 [.other]) := by
  cases h with
  | @iconst opcode short =>
    obtain ⟨-, -, n, few, byte, -⟩ := Build.iconst?_eq_some short
    obtain ⟨op, known⟩ := opcode
    subst byte
    interval_cases n <;> rfl
  | bipush => rfl
  | sipush => rfl
  | ldc held =>
    simp only [effect?, constantEffect?, held.get (by simp) small.le]
    rfl

end Constants

/-! ## Steps of building -/

section Steps

variable {α β : Type} {st st' st'' : List Source} {hs hs' : List Handing}

/-- What the step writes leads from sources to others, and hands that over on the way, in every pool
that grows out of that of the builder. -/
def Hands (x : Build α) (st st' : List Source) (hs : List Handing) : Prop :=
  ∀ b a b', x b = .ok a b' → ∃ ops, b.Wrote b' ops ∧ (b.pool.Sound → ∀ q, b'.pool.Extends q →
    q.size < 65536 → trace q ops st = some (st', hs))

namespace Hands

theorem pure (a : α) (st : List Source) : Hands (Pure.pure a : Build α) st st [] := by
  intro b a' b' h
  obtain ⟨-, rfl⟩ := step_pure_eq_ok.1 h
  exact ⟨[], .refl b, fun _ q _ _ => trace_nil q st⟩

theorem bind {x : Build α} {f : α → Build β} (hx : Hands x st st' hs)
    (hf : ∀ a, Hands (f a) st' st'' hs') : Hands (x >>= f) st st'' (hs ++ hs') := by
  intro b c b'' h
  obtain ⟨a, b', first, second⟩ := step_bind_eq_ok.1 h
  obtain ⟨ops, wrote, traced⟩ := hx b a b' first
  obtain ⟨ops', wrote', traced'⟩ := hf a b' c b'' second
  refine ⟨ops ++ ops', wrote.trans wrote', fun sound q grown small => ?_⟩
  exact trace_append (traced sound q (wrote'.pool.keeps.trans grown) small)
    (traced' (wrote.pool.sound sound) q grown small)

/-- A step in front of others that hands nothing over. -/
theorem before {x : Build α} {f : α → Build β} (hx : Hands x st st' [])
    (hf : ∀ a, Hands (f a) st' st'' hs) : Hands (x >>= f) st st'' hs := hx.bind hf

/-- A step that writes one instruction. -/
theorem single {x : Build Unit} {e : Effect} {P : Pool → Instruction → Prop}
    (wrote : ∀ b b', x b = .ok () b' → ∃ i, b.Wrote b' [i] ∧ (b.pool.Sound → P b'.pool i))
    (effect : ∀ p q i, P p i → p.Extends q → q.size < 65536 → effect? q i = some e)
    (applied : e.apply st = some (st', hs)) : Hands x st st' hs := by
  intro b _ b' h
  obtain ⟨i, wrote, held⟩ := wrote b b' h
  exact ⟨[i], wrote, fun sound q grown small =>
    trace_single (effect _ q i (held sound) grown small) applied⟩

/-- A step that writes an instruction without a constant. -/
theorem plain {x : Build Unit} {e : Effect} {i : Instruction}
    (wrote : ∀ b b', x b = .ok () b' → b.Wrote b' [i]) (effect : ∀ q, effect? q i = some e)
    (applied : e.apply st = some (st', hs)) : Hands x st st' hs :=
  .single (P := fun _ j => j = i) (fun b b' h => ⟨i, wrote b b' h, fun _ => rfl⟩)
    (fun _ q _ same _ _ => same ▸ effect q) applied

/-- A step that writes an instruction with a constant. -/
theorem constant {x : Build Unit} {op : Opcode} {e : Effect} {P : Pool → UInt16 → Prop}
    (wrote : ∀ b b', x b = .ok () b' →
      ∃ index, b.Wrote b' [⟨op, .constant index⟩] ∧ (b.pool.Sound → P b'.pool index))
    (effect : ∀ p q index, P p index → p.Extends q → q.size < 65536 →
      effect? q ⟨op, .constant index⟩ = some e)
    (applied : e.apply st = some (st', hs)) : Hands x st st' hs :=
  .single (P := fun p i => ∃ index, i = ⟨op, .constant index⟩ ∧ P p index)
    (fun b b' h =>
      have ⟨index, wrote, held⟩ := wrote b b' h
      ⟨_, wrote, fun sound => ⟨index, rfl, held sound⟩⟩)
    (fun p q _ ⟨index, same, held⟩ grown small => same ▸ effect p q index held grown small) applied

end Hands

/-! ### Without constants -/

theorem hands_pushNull (st : List Source) : Hands Build.pushNull st (.other :: st) [] :=
  .plain (fun _ _ h => Build.pushNull_wrote h) (fun _ => rfl) (apply_replace [] _ _ rfl)

theorem hands_loadThis (st : List Source) : Hands Build.loadThis st (.other :: st) [] :=
  .plain (fun _ _ h => Build.loadThis_wrote h) (fun _ => rfl) (apply_replace [] _ _ rfl)

theorem hands_dup (s : Source) (st : List Source) : Hands Build.dup (s :: st) (s :: s :: st) [] :=
  .plain (fun _ _ h => Build.dup_wrote h) (fun _ => rfl) rfl

theorem hands_popObject (s : Source) (st : List Source) :
    Hands (Build.popValue .object) (s :: st) st [] :=
  .plain (fun _ _ h => Build.popObject_wrote h) (fun _ => rfl) (apply_replace [s] _ _ rfl)

theorem hands_arrayStore (s s' s'' : Source) (st : List Source) :
    Hands Build.arrayStore (s :: s' :: s'' :: st) st [] :=
  .plain (fun _ _ h => Build.arrayStore_wrote h) (fun _ => rfl) (apply_replace [s, s', s''] _ _ rfl)

theorem hands_returnValue (t : JType) (st : List Source) :
    Hands (Build.returnValue t) (answerSources t ++ st) st [] := by
  unfold answerSources
  cases void : t.isVoid with
  | true =>
    refine .plain (fun _ _ h => Build.returnValue_wrote h) (fun _ => ?_) (apply_replace [] [] _ rfl)
    rw [if_pos void]
    rfl
  | false =>
    refine .plain (fun _ _ h => Build.returnValue_wrote h) (fun _ => ?_)
      (apply_replace [.other] [] _ rfl)
    rw [void]
    exact Build.byKind_elim (P := fun op => plainEffect? op = some (.replace 1 [])) rfl rfl rfl rfl
      rfl t

theorem hands_pushInt (v : Int32) (st : List Source) :
    Hands (Build.pushInt v) st (.other :: st) [] :=
  .single (P := fun p i => Build.PushesInt p v i) (fun _ _ h => Build.pushInt_wrote h)
    (fun _ _ _ pushes grown small => effect_int (pushes.mono grown) small)
    (apply_replace [] _ _ rfl)

theorem hands_load (t : JType) (slot : UInt16) (st : List Source) :
    Hands (Build.load t slot) st (.other :: st) [] := by
  refine .plain (e := .replace 0 [.other]) (fun _ _ h => (Build.load_wrote h).2) (fun _ => ?_)
    (apply_replace [] _ _ rfl)
  exact Build.byKind_elim (P := fun op => slotEffect? op = some (.replace 0 [.other])) rfl rfl rfl
    rfl rfl t

theorem hands_store (t : JType) (slot : UInt16) (s : Source) (st : List Source) :
    Hands (Build.store t slot) (s :: st) st [] := by
  refine .plain (e := .replace 1 []) (fun _ _ h => Build.store_wrote h) (fun _ => ?_)
    (apply_replace [s] _ _ rfl)
  exact Build.byKind_elim (P := fun op => slotEffect? op = some (.replace 1 [])) rfl rfl rfl rfl
    rfl t

theorem hands_allocateLocal (t : JType) (st : List Source) :
    Hands (Build.allocateLocal t) st st [] := by
  intro b _ b' h
  cases h
  exact ⟨[], ⟨.refl _, rfl, rfl, (fun _ _ mem => nomatch mem), Nat.le_refl _⟩,
    fun _ q _ _ => trace_nil q st⟩

/-! ### With constants -/

theorem hands_pushString (text : String) (st : List Source) :
    Hands (Build.pushString text) st (.text text :: st) [] :=
  .constant (P := fun p index => p.HoldsString index text) (fun _ _ h => Build.pushString_wrote h)
    (fun _ _ _ held grown small => effect_string (held.mono grown) small) (apply_replace [] _ _ rfl)

/-- A step that puts a number on the stack that is no `int`. -/
theorem hands_number {opcode : Opcode} {pops pushes : UInt16} {value : Literal} {c : Constant}
    (add : Pool.addLiteral value = Pool.intern c) (usable : c ≠ .unusable)
    (kind : opcode.operandKind ∈ [OperandKind.constant1, .constant2])
    (plain : opcode.isForm = false) (effect : ∀ (p : Pool) index, p.get index = .ok c →
      constantEffect? p opcode index = some (.replace 0 [.other])) (st : List Source) :
    Hands (do Build.emit opcode (.constant (← Build.onPool (Pool.addLiteral value))) pops pushes)
      st (.other :: st) [] :=
  .constant (e := .replace 0 [.other]) (P := fun p index => p.Holds index c)
    (fun _ _ h => Build.literal_wrote h add usable kind plain)
    (fun _ q _ held grown small => effect q _ ((held.mono grown).get usable small.le))
    (apply_replace [] _ _ rfl)

/-- The source of a literal. -/
def literalSource : Literal → Source
  | .string text => .text text
  | _ => .other

theorem hands_pushLiteral (value : Literal) (st : List Source) :
    Hands (Build.pushLiteral value) st (literalSource value :: st) [] := by
  cases value with
  | int v => exact hands_pushInt v st
  | string text => exact hands_pushString text st
  | long v =>
    exact hands_number rfl (by simp) (by decide) (by decide)
      (fun _ _ got => by simp [constantEffect?, got]) st
  | float bits =>
    exact hands_number rfl (by simp) (by decide) (by decide)
      (fun _ _ got => by simp [constantEffect?, got]) st
  | double bits =>
    exact hands_number rfl (by simp) (by decide) (by decide)
      (fun _ _ got => by simp [constantEffect?, got]) st

/-- A step that writes an instruction with a class. -/
theorem hands_class {opcode : Opcode} {pops pushes : UInt16} {name : String} {e : Effect}
    (kind : opcode.operandKind = .constant2) (plain : opcode.isForm = false)
    (effect : ∀ p index, p.HoldsClass index name → p.size < 65536 →
      effect? p ⟨opcode, .constant index⟩ = some e) (applied : e.apply st = some (st', hs)) :
    Hands (do Build.emit opcode (.constant (← Build.onPool (Pool.addClass name))) pops pushes)
      st st' hs :=
  .constant (P := fun p index => p.HoldsClass index name)
    (fun _ _ h => Build.class_wrote h kind plain)
    (fun _ _ _ held grown small => effect _ _ (held.mono grown) small) applied

theorem hands_newObject (name : ClassName) (st : List Source) :
    Hands (Build.newObject name) st (.fresh st.length :: st) [] :=
  hands_class (by decide) (by decide) (fun _ _ held small => effect_class held small) rfl

theorem hands_newObjectArray (s : Source) (st : List Source) :
    Hands (Build.newArray .object) (s :: st) (.other :: st) [] :=
  hands_class (by decide) (by decide) (fun _ _ held small => effect_class held small)
    (apply_replace [s] _ _ rfl)

theorem hands_checkcast (t : JType) (st : List Source) :
    Hands (Build.checkcast t) (.other :: st) (.other :: st) [] := by
  unfold Build.checkcast
  split
  · exact .pure _ _
  · cases t.classOperand? with
    | none =>
      intro b _ b' h
      cases h
    | some name =>
      exact hands_class (by decide) (by decide) (fun _ _ held small => effect_class held small)
        (apply_replace [.other] _ _ rfl)

/-- A step that uses a field. -/
theorem hands_field {opcode : Opcode} {owner : ClassName} {name : String} {t : JType}
    {pops pushes : UInt16} {e : Effect} (kind : opcode.operandKind = .constant2)
    (plain : opcode.isForm = false)
    (effect : ∀ p index, p.HoldsField index owner.internal name t.descriptor → p.size < 65536 →
      effect? p ⟨opcode, .constant index⟩ = some e) (applied : e.apply st = some (st', hs)) :
    Hands (Build.field opcode owner name t pops pushes) st st' hs :=
  .constant (P := fun p index => p.HoldsField index owner.internal name t.descriptor)
    (fun _ _ h => Build.field_wrote h kind plain)
    (fun _ _ _ held grown small => effect _ _ (held.mono grown) small) applied

theorem hands_getStatic (owner : ClassName) (name : String) (t : JType) (st : List Source) :
    Hands (Build.getStatic owner name t) st
      (.field ⟨owner.internal, name, t.descriptor⟩ :: st) [] :=
  hands_field (by decide) (by decide) (fun _ _ held small => effect_field held small)
    (apply_replace [] _ _ rfl)

theorem hands_putStatic (owner : ClassName) (name : String) (t : JType) (s : Source)
    (st : List Source) : Hands (Build.putStatic owner name t) (s :: st) st [] :=
  hands_field (by decide) (by decide) (fun _ _ held small => effect_field held small)
    (apply_replace [s] _ _ rfl)

theorem hands_putField (owner : ClassName) (name : String) (t : JType) (s s' : Source)
    (st : List Source) : Hands (Build.putField owner name t) (s :: s' :: st) st [] :=
  hands_field (by decide) (by decide) (fun _ _ held small => effect_field held small)
    (apply_replace [s, s'] _ _ rfl)

/-! ### Calls -/

/-- A step that calls a method of a class. -/
theorem hands_invoke {opcode : Opcode} {owner : ClassName} {name : String} {d : MethodDescriptor}
    {e : Effect} (kind : opcode.operandKind = .constant2) (plain : opcode.isForm = false)
    (effect : callEffect? opcode owner.internal name d.descriptor = some e)
    (applied : e.apply st = some (st', hs)) : Hands (Build.invoke opcode owner name d false) st st' hs :=
  .constant (P := fun p index => p.HoldsMethod index owner.internal name d.descriptor false)
    (fun _ _ h => Build.invoke_wrote h kind plain)
    (fun _ _ _ held grown small => (constantEffect_method (held.mono grown) small).trans effect)
    applied

theorem hands_construct (owner : ClassName) (d : MethodDescriptor) (args : List Source) {n : Nat}
    (arguments : args.all Source.isSettled) (settled : st.all Source.isSettled) :
    Hands (Build.invokeSpecial owner "<init>" d) (args ++ .fresh n :: .fresh n :: st)
      (.other :: st) [] :=
  hands_invoke (by decide) (by decide) rfl (apply_construct arguments settled)

theorem callEffect_static {owner name : String} {d : MethodDescriptor} (spelled : d.Spelled) :
    callEffect? .invokestatic owner name d.descriptor =
      if owner = bridgeClass.internal ∧ d.params ≠ [] then
        some (.hand name (d.params.length - 1) (answerSources d.ret))
      else some (.replace d.params.length (answerSources d.ret)) := by
  simp only [callEffect?, if_neg (show Opcode.invokestatic ≠ .invokespecial by decide),
    MethodDescriptor.ofText_descriptor spelled, if_true]

/-- Calls of the bridge hand over what is below their other arguments. -/
theorem hands_bridge (name : String) {d : MethodDescriptor} {t : JType} {ts : List JType}
    (spelled : d.Spelled) (params : d.params = t :: ts) (args : List Source) (token : Source)
    (st : List Source) (count : args.length = ts.length) :
    Hands (Build.invokeStatic bridgeClass name d) (args ++ token :: st) (answerSources d.ret ++ st)
      [⟨name, token⟩] := by
  refine hands_invoke (by decide) (by decide) ((callEffect_static spelled).trans (if_pos ?_))
    (apply_hand name args token _ st ?_)
  · exact ⟨rfl, by simp [params]⟩
  · rw [count, params, List.length_cons, Nat.add_sub_cancel]

theorem hands_invokeInterface (owner : ClassName) (name : String) {d : MethodDescriptor}
    (spelled : d.Spelled) (args st : List Source) (count : args.length = d.params.length + 1) :
    Hands (Build.invokeInterface owner name d) (args ++ st) (answerSources d.ret ++ st) [] :=
  .single (e := .replace (d.params.length + 1) (answerSources d.ret))
    (P := fun p i => ∃ index n, i = ⟨.invokeinterface, .invokeInterface index n⟩ ∧
      p.HoldsMethod index owner.internal name d.descriptor true)
    (fun _ _ h =>
      have ⟨index, n, wrote, held⟩ := Build.invokeInterface_wrote h
      ⟨_, wrote, fun sound => ⟨index, n, rfl, held sound⟩⟩)
    (fun _ _ _ ⟨_, _, same, held⟩ grown small => by
      subst same
      refine (constantEffect_method (held.mono grown) small).trans ?_
      simp only [callEffect?, if_neg (show Opcode.invokeinterface ≠ .invokespecial by decide),
        if_neg (show Opcode.invokeinterface ≠ .invokestatic by decide),
        MethodDescriptor.ofText_descriptor spelled, or_true, if_true])
    (apply_replace args _ st count)

theorem hands_box (t : JType) (st : List Source) :
    Hands (Build.box t) (.other :: st) (.other :: st) [] := by
  cases t with
  | void =>
    intro b _ b' h
    cases h
  | primitive p =>
    refine hands_invoke (by decide) (by decide)
      ((callEffect_static (Build.spelled_box p)).trans (if_neg ?_)) (apply_replace [.other] _ st rfl)
    cases p <;> decide
  | _ =>
    intro b _ b' h
    exact Hands.pure () (.other :: st) b () b' h

theorem hands_unbox (t : JType) (st : List Source) :
    Hands (Build.unbox t) (.other :: st) (.other :: st) [] := by
  cases t with
  | void =>
    intro b _ b' h
    cases h
  | primitive p =>
    have read := MethodDescriptor.ofText_descriptor (Build.spelled_unbox p)
    refine (hands_checkcast _ st).before fun _ => hands_invoke (by decide) (by decide) ?_
      (apply_replace [.other] [.other] st rfl)
    simp only [callEffect?, if_neg (show Opcode.invokevirtual ≠ .invokespecial by decide),
      if_neg (show Opcode.invokevirtual ≠ .invokestatic by decide), read, true_or, if_true]
    rfl
  | reference name => exact hands_checkcast (.reference name) st
  | array n element => exact hands_checkcast (.array n element) st

end Steps

end Weft.Weave
