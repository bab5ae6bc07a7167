import Weft.Proofs.Code.Writing
import Weft.Proofs.Machine.Marshalling

/-!
# Bodies that are built, written and read back

A body that is built of straight code is read back from what is written of it, with the same
instructions, in every pool that grows out of its own. What it does when it runs is what the actions
do that its steps of building perform.
-/

namespace Weft

open Machine

/-- A constant of straight code is one of each small pool that grows out of a sound one. -/
theorem Instruction.Straight.constantInRange {p q : Pool} {i : Instruction} (h : i.Straight p)
    (sound : p.Sound) (grown : p.Extends q) (small : q.size < 65536) :
    Body.constantInRange q i = true := by
  rw [Body.constantInRange, Option.all_eq_true]
  intro index named
  obtain ⟨c, usable, held⟩ := h.constant index named
  have found := (held.mono grown).getElem? small.le
  obtain ⟨inside, -⟩ := Array.getElem?_eq_some_iff.1 found
  have some_slot : index ≠ 0 := by
    rintro rfl
    obtain ⟨cs, laid, -⟩ := sound.laid
    have first : p.entries[0]? = some .unusable := by
      rw [← Array.getElem?_toList, laid]
      rfl
    have bound : 0 < p.size := (Array.getElem?_eq_some_iff.1 first).1
    have same := (grown.entries_eq bound).symm.trans found
    rw [first] at same
    cases same
    exact usable rfl
  exact Bool.and_eq_true_iff.2 ⟨bne_iff_ne.2 some_slot, decide_eq_true inside⟩

/-- A straight body is read back with its instructions, of which there are not too many. -/
theorem Body.ofCode_of_straight {b : Body} {ops : List Instruction} {p q r : Pool}
    {c : CodeAttribute} (written : b.toCode p = .ok c q) (code : b.code = ops.map .op)
    (handlers : b.handlers = []) (straight : ∀ i ∈ ops, i.Straight p) (sound : p.Sound)
    (grown : q.Extends r) (small : r.size < 65536) :
    ops.length ≤ 65535 ∧ ∃ b', Body.ofCode c r = .ok b' ∧ b'.instructions = ops ∧
      b'.maxStack = b.maxStack ∧ b'.maxLocals = b.maxLocals := by
  have instructions : b.instructions = ops := by
    simp [Body.instructions, code, List.filterMap_map, Function.comp_def, Item.instruction?]
  obtain ⟨grew, l, w⟩ := toCode_eq_ok written
  have constants : ∀ i ∈ ops, constantInRange r i = true := fun i mem =>
    (straight i mem).constantInRange sound (grew.keeps.trans grown) small
  have targets : b.instructions.flatMap Instruction.targets = [] := by
    rw [instructions, List.flatMap_eq_nil_iff]
    exact fun i mem => (straight i mem).targets
  have shaped : b.Shaped r :=
    { instructions := fun i mem => (straight i (instructions ▸ mem)).shaped
      constants := fun i mem => constants i (instructions ▸ mem)
      once := by simp [code, List.filterMap_map, Function.comp_def, Item.label?]
      targets := fun x mem => by
        rw [targets] at mem
        cases mem
      entries := fun h mem => by
        rw [handlers] at mem
        cases mem }
  have s := Layout.settled_of_ofCode w.layout
  obtain ⟨length, read⟩ := s.ofBytes_bytes shaped.once shaped.instructions w.code
  have renamed := renamed_ofLocated s shaped w length
  refine ⟨?_, _, ofCode_eq_ofLocated read (inPlace_of_written s shaped w length) ?_, ?_,
    renamed.maxStack, renamed.maxLocals⟩
  · have few := Layout.length_le_of_sorted s.contiguous.sorted fun o mem =>
      s.contiguous.boundary_le mem
    have bounded := s.bounded
    rw [List.length_append, s.length_starts, instructions, List.length_singleton] at few
    simp only [Layout.limit] at bounded
    omega
  · intro i mem
    obtain ⟨j, hj, same⟩ := mem_located s mem
    rw [instructions] at hj
    rw [same, Instruction.mapLabels_of_targets (straight j hj).targets]
    exact constants j hj
  · rw [renamed.instructions, instructions]
    refine (List.map_congr_left fun i mem => ?_).trans (List.map_id ops)
    exact Instruction.mapLabels_of_targets (straight i mem).targets _

/-- What a body that is built does when it is read back, on words for which it has slots. -/
theorem Body.runs_of_build {σ : Type} {env : Env σ} {code : Build Unit} {as : List Act}
    {locals : UInt16} {body : Body} {p q r t : Pool} {c : CodeAttribute}
    (performs : Build.Performs env code as) (sound : p.Sound)
    (built : Body.build locals code p = .ok body q) (written : body.toCode q = .ok c r)
    (grown : r.Extends t) (small : t.size < 65536) :
    as.length ≤ 65535 ∧ ∃ b, Body.ofCode c t = .ok b ∧
      ((∀ n ∈ heights 0 as, n < 65536) → ∀ (enter : Enter σ) words s e s',
        (layOut words).length ≤ locals.toNat → Ends env enter as ⟨[], layOut words, s⟩ e s' →
          runBody env enter t b words s = (e, s')) := by
  obtain ⟨made, ran, rfl, rfl⟩ := Body.build_eq_ok built
  obtain ⟨⟨ops, wrote, -, resolved⟩, counts⟩ := performs _ _ ran
  have sound' := wrote.pool.sound sound
  obtain ⟨few, b, read, instructions, maxStack, maxLocals⟩ := Body.ofCode_of_straight written
    wrote.finish (by simp [Builder.finish, wrote.handlers, Builder.start]) (wrote.straight sound)
    sound' grown small
  have whole := (toCode_eq_ok written).1.keeps.trans grown
  have resolved := resolved sound t whole small
  refine ⟨resolved.length_eq ▸ few, b, read, fun low enter words s e s' fits ends => ?_⟩
  obtain ⟨m, ended, rfl⟩ := ends
  refine runBody_eq (instructions ▸ resolved) (fun n mem => ?_) ?_ ended
  · rw [maxStack]
    exact counts.highest low n mem
  · rw [maxLocals]
    exact fits.trans (UInt16.le_iff_toNat_le.1 (Builder.le_max locals made.nextLocal).1)

/-! ## Short bodies -/

theorem Instruction.size_le_of_targets {i : Instruction} (h : i.targets = []) (offset : Nat)
    (wide : Bool) : i.size offset wide ≤ 6 := by
  obtain ⟨op, operand⟩ := i
  unfold Instruction.size
  cases operand with
  | branch target => cases h
  | tableSwitch default low targets => cases h
  | lookupSwitch default pairs => cases h
  | _ => simp only; (try split) <;> omega

namespace Layout

theorem Contiguous.stop_le {items : List Placed} {start stop n : Nat}
    (h : Contiguous start items stop) (each : ∀ p ∈ items, p.size ≤ n) :
    stop ≤ start + n * items.length := by
  induction items generalizing start with
  | nil => exact Nat.le_of_eq (Eq.symm h)
  | cons p rest ih =>
    have first := each p List.mem_cons_self
    have behind := ih h.2 fun q mem => each q (List.mem_cons_of_mem p mem)
    rw [List.length_cons, Nat.mul_succ]
    omega

theorem widens_of_targets {l : Layout} {p : Placed} {i : Instruction} (op : p.item = .op i)
    (h : i.targets = []) : l.widens p = .ok false := by
  have straight : p.narrowBranch? = none := by
    obtain ⟨code, operand⟩ := i
    unfold Placed.narrowBranch?
    rw [op]
    cases operand with
    | branch target => cases h
    | _ => rfl
  rw [widens, straight]

theorem ranged_of_targets {i : Instruction} (h : i.targets = []) : i.Ranged := by
  obtain ⟨op, operand⟩ := i
  rintro default low targets rfl
  cases h

/-- Straight code that is short is laid out in one round. -/
theorem exists_ofCode {ops : List Instruction} (targets : ∀ i ∈ ops, i.targets = [])
    (short : 6 * ops.length ≤ limit) :
    ∃ l, ofCode (ops.map .op) = .ok l ∧ ∃ bytes, l.bytes = .ok bytes := by
  obtain ⟨same, contiguous⟩ := contiguous_ofSized ((ops.map .op).map ({ item := · }))
  generalize laid : ofSized ((ops.map .op).map ({ item := · })) = l at same contiguous
  have op : ∀ p ∈ l.items, ∃ i ∈ ops, p.item = .op i := by
    intro p mem
    have listed : p.toSized ∈ (ops.map .op).map ({ item := · }) := same ▸ List.mem_map_of_mem mem
    simp only [List.map_map, List.mem_map, Function.comp_apply] at listed
    obtain ⟨i, of_ops, sized⟩ := listed
    exact ⟨i, of_ops, congrArg Sized.item sized.symm⟩
  have length : l.items.length = ops.length := by
    simpa using congrArg List.length same
  have bounded : l.size ≤ limit := by
    have bound := contiguous.stop_le (n := 6) fun p mem => by
      obtain ⟨i, of_ops, is_op⟩ := op p mem
      rw [Placed.size_op is_op]
      exact Instruction.size_le_of_targets (targets i of_ops) _ _
    omega
  have each : ∀ p ∈ l.items, l.widens p = .ok false := fun p mem => by
    obtain ⟨i, of_ops, is_op⟩ := op p mem
    exact widens_of_targets is_op (targets i of_ops)
  have still : ∃ sized, l.widen = .ok (sized, false) := by
    have mapped : l.items.mapM (fun p => do return (p.toSized, ← l.widens p)) =
        .ok (l.items.map fun p => (p.toSized, false)) := by
      rw [except_mapM_eq_ok, List.forall₂_map_right_iff, List.forall₂_same]
      exact fun p mem => except_bind_eq_ok.2 ⟨false, each p mem, rfl⟩
    have unchanged : (l.items.map fun p => (p.toSized, false)).any (·.2) = false := by simp
    exact ⟨_, except_bind_eq_ok.2 ⟨_, mapped, except_pure_eq_ok.2 (Prod.ext rfl unchanged)⟩⟩
  refine ⟨l, ?_, ?_⟩
  · obtain ⟨sized, still⟩ := still
    rw [ofCode, settle, laid]
    simp only [still, Nat.not_lt.2 bounded, if_false]
    rfl
  · obtain ⟨parts, written⟩ := exists_forall₂ (R := fun p bytes => l.itemBytes p = .ok bytes)
      fun p mem => by
        obtain ⟨i, of_ops, is_op⟩ := op p mem
        rw [itemBytes, is_op]
        have none : i.targets = [] := targets i of_ops
        exact exists_instructionBytes (fun x mem => absurd (none ▸ mem) List.not_mem_nil)
          (ranged_of_targets none) _ _
    exact ⟨parts.flatten, except_map_eq_ok.2 ⟨parts, except_mapM_eq_ok.2 written, rfl⟩⟩

end Layout

/-- A body of short straight code can be written, and needs no more constants. -/
theorem Body.exists_toCode {b : Body} {ops : List Instruction} (code : b.code = ops.map .op)
    (targets : ∀ i ∈ ops, i.targets = []) (handlers : b.handlers = []) (lines : b.lines = [])
    (locals : b.locals = []) (short : 6 * ops.length ≤ Layout.limit) (p : Pool) :
    ∃ c, b.toCode p = .ok c p := by
  obtain ⟨l, laid, bytes, written⟩ := Layout.exists_ofCode targets short
  have no_lines : b.lineAttributes l p = .ok [] p := by
    rw [lineAttributes, lines]
    rfl
  have no_locals : b.localAttributes l p = .ok [] p := by
    rw [localAttributes, locals]
    rfl
  refine ⟨_, step_bind_eq_ok.2 ⟨l, p, edit_lift_eq_ok.2 ⟨code ▸ laid, rfl⟩, step_bind_eq_ok.2 ⟨bytes,
    p, edit_lift_eq_ok.2 ⟨written, rfl⟩, step_bind_eq_ok.2 ⟨[], p, edit_lift_eq_ok.2 ⟨?_, rfl⟩,
      step_bind_eq_ok.2 ⟨[], p, no_lines, step_bind_eq_ok.2 ⟨[], p, no_locals, rfl⟩⟩⟩⟩⟩⟩
  rw [handlers]
  rfl

/-- A body without lines and variables needs no more constants when it is written. -/
theorem Body.pool_of_toCode {b : Body} {c : CodeAttribute} {p q : Pool}
    (h : b.toCode p = .ok c q) (lines : b.lines = []) (locals : b.locals = []) : q = p := by
  obtain ⟨l, code, exceptions, in_lines, p₁, in_locals, -, -, -, named_lines, named_locals, -⟩ :=
    steps_of_toCode h
  rw [lineAttributes, lines] at named_lines
  rw [localAttributes, locals] at named_locals
  cases named_lines
  cases named_locals
  rfl

/-- Building adds at most six constants for each action, and writing adds none. What is short can
be written. -/
theorem Body.toCode_of_build {σ : Type} {env : Env σ} {code : Build Unit} {as : List Act}
    {locals : UInt16} {body : Body} {p q : Pool} (performs : Build.Performs env code as)
    (sound : p.Sound) (built : Body.build locals code p = .ok body q) :
    q.size ≤ p.size + 6 * as.length ∧ (∀ c r, body.toCode q = .ok c r → r = q) ∧
      (6 * as.length ≤ Layout.limit → ∃ c, body.toCode q = .ok c q) := by
  obtain ⟨made, ran, rfl, rfl⟩ := Body.build_eq_ok built
  obtain ⟨⟨ops, wrote, length, -⟩, -⟩ := performs _ _ ran
  refine ⟨length ▸ wrote.few, fun c r written => pool_of_toCode written rfl rfl, fun short => ?_⟩
  exact Body.exists_toCode wrote.finish (fun i mem => (wrote.straight sound i mem).targets)
    (by simp [Builder.finish, wrote.handlers, Builder.start]) rfl rfl (length ▸ short) _

/-! ## Code that is built -/

/-- The code is that of a body that was built of `code`, and the pool holds its constants. -/
def CodeAttribute.IsBuilt (c : CodeAttribute) (locals : UInt16) (code : Build Unit) (q : Pool) :
    Prop :=
  ∃ body p p' r, p.Sound ∧ Body.build locals code p = .ok body p' ∧ body.toCode p' = .ok c r ∧
    r.Extends q

namespace CodeAttribute.IsBuilt

variable {σ : Type} {env : Env σ} {c : CodeAttribute} {locals : UInt16} {code : Build Unit}
  {as : List Act} {q r : Pool}

theorem mono (h : c.IsBuilt locals code q) (grown : q.Extends r) : c.IsBuilt locals code r := by
  obtain ⟨body, p, p', p'', sound, built, written, keeps⟩ := h
  exact ⟨body, p, p', p'', sound, built, written, keeps.trans grown⟩

theorem length_le (h : c.IsBuilt locals code q) (performs : Build.Performs env code as)
    (small : q.size < 65536) : as.length ≤ 65535 := by
  obtain ⟨body, p, p', p'', sound, built, written, keeps⟩ := h
  exact (Body.runs_of_build performs sound built written keeps small).1

/-- The code is read back as a body that runs as its actions do. -/
theorem runs (h : c.IsBuilt locals code q) (performs : Build.Performs env code as)
    (small : q.size < 65536) (low : ∀ n ∈ heights 0 as, n < 65536) :
    ∃ b, Body.ofCode c q = .ok b ∧ ∀ (enter : Enter σ) words s e s',
      (layOut words).length ≤ locals.toNat → Ends env enter as ⟨[], layOut words, s⟩ e s' →
        runBody env enter q b words s = (e, s') := by
  obtain ⟨body, p, p', p'', sound, built, written, keeps⟩ := h
  obtain ⟨-, b, read, runs⟩ := Body.runs_of_build performs sound built written keeps small
  exact ⟨b, read, runs low⟩

end CodeAttribute.IsBuilt

theorem Machine.Env.exists_run {σ : Type} (env : Env σ) (n : Nat) :
    ∃ enter, env.run n = runBody env enter := by
  cases n <;> exact ⟨_, rfl⟩

end Weft
