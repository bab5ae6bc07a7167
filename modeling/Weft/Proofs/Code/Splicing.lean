import Weft.Proofs.Code.Decoding

/-!
# Bodies with inserted code

A body that is read from code has everything in its place, and keeps it so when code without labels
is inserted anywhere. So what is written of the body is read back with the instructions that were
inserted, between those that were in front of them and those that were behind.
-/

namespace Weft

/-! ## What is read -/

theorem Boundaries.isStart_of_checkTargets {boundaries : Boundaries} {i : Located}
    (h : boundaries.checkTargets i = .ok ()) :
    ∀ o ∈ i.targetOffsets, boundaries.isStart o = true := by
  intro o mem
  unfold checkTargets at h
  split at h
  · cases h
  · rename_i none
    simpa using List.find?_eq_none.1 none o mem

theorem Boundaries.isStart_of_checkException {boundaries : Boundaries} {e : ExceptionEntry}
    (h : boundaries.checkException e = .ok ()) : boundaries.isStart e.handlerPc.toNat = true := by
  unfold checkException at h
  split at h
  · rename_i checked
    exact (Bool.and_eq_true_iff.1 checked).2
  · cases h

namespace LabelTable

variable {table : LabelTable} {referenced : Nat → Prop} {located : List Located} {stop o : Nat}

/-- The label of an instruction stands before an instruction. -/
theorem Numbers.position_lt (numbers : table.Numbers referenced (located.map (·.offset) ++ [stop]))
    (sorted : (located.map (·.offset) ++ [stop]).Pairwise (· < ·)) (known : referenced o)
    (starts : (Boundaries.ofCode located stop).isStart o = true) {n : Nat}
    (here : position? (table.label o) (located.flatMap table.items ++ table.mark stop) = some n) :
    n < located.length := by
  obtain ⟨-, mem⟩ := Boundaries.isStart_iff.1 starts
  have found := numbers.get_label known (List.mem_append_left _ mem)
  obtain ⟨k, at_k⟩ := List.getElem?_of_mem mem
  have inside : k < located.length := by simpa using (List.getElem?_eq_some_iff.1 at_k).1
  have placed := numbers.position_code (n := k) sorted
    (by rw [List.getElem?_append_left (by simpa using inside), at_k]) found
  rw [here] at placed
  cases placed
  exact inside

end LabelTable

namespace Body

variable {b f b' : Body} {c : CodeAttribute} {p q : Pool} {ops : List Instruction} {position : Nat}

/-- Code that is made of located instructions, with the labels of a table, has all in its place. -/
theorem shaped_of_located {located : List Located} {table : LabelTable} {referenced : Nat → Prop}
    {stop : Nat} (numbers : table.Numbers referenced (located.map (·.offset) ++ [stop]))
    (sorted : (located.map (·.offset) ++ [stop]).Pairwise (· < ·))
    (code : b.code = located.flatMap table.items ++ table.mark stop)
    (shaped : ∀ i ∈ located, i.instruction.WellShaped)
    (constants : ∀ i ∈ b.instructions, constantInRange p i = true)
    (targets : ∀ i ∈ located, ∀ o ∈ i.targetOffsets,
      referenced o ∧ (Boundaries.ofCode located stop).isStart o = true)
    (handlers : ∀ h ∈ b.handlers, ∃ o, h.target = table.label o ∧ referenced o ∧
      (Boundaries.ofCode located stop).isStart o = true) : b.Shaped p := by
  have instructions : b.instructions = located.map fun i =>
      i.instruction.mapLabels fun l => table.label l.number.toNat := by
    rw [Body.instructions, code, LabelTable.instructions_code]
  have place {o : Nat} (known : referenced o)
      (starts : (Boundaries.ofCode located stop).isStart o = true) {n : Nat}
      (here : b.position? (table.label o) = some n) : n < b.instructions.length := by
    rw [instructions, List.length_map]
    rw [Body.position?, code] at here
    exact numbers.position_lt sorted known starts here
  constructor
  case instructions =>
    intro i mem
    rw [instructions] at mem
    obtain ⟨j, within, rfl⟩ := List.mem_map.1 mem
    exact (shaped j within).mapLabels _
  case constants => exact constants
  case once => exact code ▸ numbers.once sorted
  case targets =>
    intro x mem n here
    rw [instructions] at mem
    obtain ⟨i, listed, leads⟩ := List.mem_flatMap.1 mem
    obtain ⟨j, within, rfl⟩ := List.mem_map.1 listed
    rw [Instruction.targets_mapLabels] at leads
    obtain ⟨l, led, rfl⟩ := List.mem_map.1 leads
    obtain ⟨known, starts⟩ := targets j within _ (List.mem_map_of_mem led)
    exact place known starts here
  case entries =>
    intro h mem n here
    obtain ⟨o, same, known, starts⟩ := handlers h mem
    exact place known starts (same ▸ here)

/-- A body that is read can be written and read back. -/
theorem shaped_of_ofCode (h : ofCode c p = .ok b) (short : c.code.length ≤ 65535) : b.Shaped p := by
  obtain ⟨located, read, h⟩ := except_bind_eq_ok.1 h
  obtain ⟨⟨⟩, targets, h⟩ := except_bind_eq_ok.1 h
  obtain ⟨⟨⟩, exceptions, h⟩ := except_bind_eq_ok.1 h
  have targets := except_forM_eq_ok targets
  have exceptions := except_forM_eq_ok exceptions
  have adjoined := Located.adjoin_of_ofBytes read
  have few := Layout.length_le_of_sorted (n := c.code.length) adjoined.sorted fun o mem => by
    rcases List.mem_append.1 mem with mem | mem
    · obtain ⟨i, within, rfl⟩ := List.mem_map.1 mem
      exact Nat.le_of_lt (adjoined.bounds within).2.1
    · exact Nat.le_of_eq (List.mem_singleton.1 mem)
  dsimp only at h
  split at h
  · cases h
  rename_i known
  cases h
  have few' : c.code.length + 1 ≤ 4294967296 := by omega
  refine shaped_of_located (LabelTable.numbers_number adjoined.sorted
    (Nat.le_trans (List.length_filter_le _ _) (Nat.le_trans few few'))) adjoined.sorted rfl
    (fun i mem => (adjoined.bounds mem).2.2) (fun i mem => ?_) (fun i mem o leads => ⟨?_, ?_⟩)
    fun h mem => ?_
  · simpa using List.find?_eq_none.1 known i mem
  · rw [Std.HashSet.mem_ofList, List.contains_iff_mem]
    exact List.mem_append_left _ (List.mem_flatMap.2 ⟨i, mem, leads⟩)
  · exact Boundaries.isStart_of_checkTargets (targets i mem) o leads
  · obtain ⟨e, listed, rfl⟩ := List.mem_map.1 mem
    refine ⟨e.handlerPc.toNat, rfl, ?_, Boundaries.isStart_of_checkException (exceptions e listed)⟩
    rw [Std.HashSet.mem_ofList, List.contains_iff_mem]
    refine List.mem_append_right _ (List.mem_append_left _ (List.mem_flatMap.2 ⟨e, listed, ?_⟩))
    simp [ExceptionEntry.offsets]

/-- A body with everything in its place is read back from what is written of it. -/
theorem Shaped.reread (shaped : b.Shaped p) (written : b.toCode p = .ok c q) :
    ∃ g b', ofCode c q = .ok b' ∧ b.Renamed g b' := by
  obtain ⟨grown, l, w⟩ := toCode_eq_ok written
  have s := Layout.settled_of_ofCode w.layout
  obtain ⟨length, read⟩ := s.ofBytes_bytes shaped.once shaped.instructions w.code
  refine ⟨_, _, ofCode_eq_ofLocated read (inPlace_of_written s shaped w length) (fun i mem => ?_),
    renamed_ofLocated s shaped w length⟩
  obtain ⟨j, within, same⟩ := mem_located s mem
  rw [same, constantInRange, j.constantIndex?_mapLabels]
  exact constantInRange_of_extends grown.keeps (shaped.constants j within)

/-! ## What is inserted -/

theorem position_insert {x : Label} {before after : List Item} {n : Nat}
    (h : Weft.position? x (before ++ (ops.map .op ++ after)) = some n) :
    ∃ m, Weft.position? x (before ++ after) = some m ∧ n ≤ m + ops.length := by
  induction before generalizing n with
  | nil =>
    induction ops generalizing n with
    | nil => exact ⟨n, h, Nat.le_refl n⟩
    | cons i ops ih =>
      obtain ⟨k, here, rfl⟩ := Option.map_eq_some_iff.1 h
      obtain ⟨m, there, bound⟩ := ih here
      exact ⟨m, there, Nat.succ_le_succ bound⟩
  | cons item before ih =>
    cases item with
    | label l =>
      rw [List.cons_append, Weft.position?] at h ⊢
      split at h
      · cases h
        exact ⟨0, if_pos ‹_›, Nat.zero_le _⟩
      · rw [if_neg ‹_›]
        exact ih h
    | op i =>
      obtain ⟨k, here, rfl⟩ := Option.map_eq_some_iff.1 h
      obtain ⟨m, there, bound⟩ := ih here
      exact ⟨m + 1, by rw [List.cons_append, Weft.position?, there]; rfl, by omega⟩

variable (position) in
theorem code_splice (code : f.code = ops.map .op) (targets : ∀ i ∈ ops, i.targets = []) :
    (b.splice position f).code = b.code.take position ++ (ops.map .op ++ b.code.drop position) := by
  have same : f.code.map (Item.mapLabels (Label.shift b.labelCount)) = ops.map .op := by
    rw [code, List.map_map]
    refine List.map_congr_left fun i mem => ?_
    exact congrArg Item.op (Instruction.mapLabels_of_targets (targets i mem) _)
  rw [splice, same]

/-- The instructions in front of a position. -/
def instructionsBefore (b : Body) (position : Nat) : List Instruction :=
  (b.code.take position).filterMap Item.instruction?

/-- The instructions from a position on. -/
def instructionsFrom (b : Body) (position : Nat) : List Instruction :=
  (b.code.drop position).filterMap Item.instruction?

theorem instructions_append (b : Body) (position : Nat) :
    b.instructions = b.instructionsBefore position ++ b.instructionsFrom position := by
  rw [instructionsBefore, instructionsFrom, ← List.filterMap_append, List.take_append_drop,
    instructions]

variable (position) in
theorem instructions_splice (code : f.code = ops.map .op) (targets : ∀ i ∈ ops, i.targets = []) :
    (b.splice position f).instructions =
      b.instructionsBefore position ++ (ops ++ b.instructionsFrom position) := by
  have plain : (ops.map Item.op).filterMap Item.instruction? = ops := by
    simp [List.filterMap_map, Function.comp_def, Item.instruction?]
  rw [instructions, code_splice position code targets, List.filterMap_append, List.filterMap_append,
    plain, instructionsBefore, instructionsFrom]

/-- Inserted code without labels leaves everything in its place. -/
theorem Shaped.splice (h : b.Shaped p) (position : Nat) (code : f.code = ops.map .op)
    (handlers : f.handlers = []) (shaped : ∀ i ∈ ops, i.WellShaped)
    (targets : ∀ i ∈ ops, i.targets = []) (constants : ∀ i ∈ ops, constantInRange p i = true) :
    (b.splice position f).Shaped p := by
  have whole := instructions_splice (b := b) position code targets
  have parts := b.instructions_append position
  have old_or_new {i : Instruction} (mem : i ∈ (b.splice position f).instructions) :
      i ∈ b.instructions ∨ i ∈ ops := by
    rw [whole, List.mem_append, List.mem_append] at mem
    rw [parts, List.mem_append]
    tauto
  have later {x : Label} {n : Nat} (here : (b.splice position f).position? x = some n)
      (inside : ∀ m, b.position? x = some m → m < b.instructions.length) :
      n < (b.splice position f).instructions.length := by
    rw [Body.position?, code_splice position code targets] at here
    obtain ⟨m, there, bound⟩ := position_insert here
    rw [List.take_append_drop] at there
    have := inside m there
    rw [parts, List.length_append] at this
    rw [whole, List.length_append, List.length_append]
    omega
  constructor
  case instructions => exact fun i mem => (old_or_new mem).elim (h.instructions i) (shaped i)
  case constants => exact fun i mem => (old_or_new mem).elim (h.constants i) (constants i)
  case once =>
    have none : (ops.map Item.op).filterMap Item.label? = [] := by
      simp [List.filterMap_map, Function.comp_def, Item.label?]
    rw [code_splice position code targets, List.filterMap_append, List.filterMap_append, none,
      List.nil_append, ← List.filterMap_append, List.take_append_drop]
    exact h.once
  case targets =>
    intro x mem n here
    obtain ⟨i, listed, leads⟩ := List.mem_flatMap.1 mem
    rcases old_or_new listed with old | new
    · exact later here (h.targets x (List.mem_flatMap.2 ⟨i, old, leads⟩))
    · rw [targets i new] at leads
      cases leads
  case entries =>
    intro e mem n here
    have old : e ∈ b.handlers := by
      simpa [Body.splice, handlers] using mem
    exact later here (h.entries e old)

/-- What is written of a body with inserted code is read back with it, in its place. -/
theorem ofCode_splice (h : b.Shaped p) (code : f.code = ops.map .op) (handlers : f.handlers = [])
    (shaped : ∀ i ∈ ops, i.WellShaped) (targets : ∀ i ∈ ops, i.targets = [])
    (constants : ∀ i ∈ ops, constantInRange p i = true)
    (written : (b.splice position f).toCode p = .ok c q) :
    ∃ g b', ofCode c q = .ok b' ∧ b'.instructions =
      (b.instructionsBefore position).map (·.mapLabels g) ++
        (ops ++ (b.instructionsFrom position).map (·.mapLabels g)) := by
  obtain ⟨g, b', read, renamed⟩ :=
    (h.splice position code handlers shaped targets constants).reread written
  refine ⟨g, b', read, ?_⟩
  have same : ops.map (·.mapLabels g) = ops :=
    (List.map_congr_left fun i mem => Instruction.mapLabels_of_targets (targets i mem) g).trans
      (List.map_id ops)
  rw [renamed.instructions, instructions_splice position code targets, List.map_append,
    List.map_append, same]

/-- Attributes that are kept as bytes tell nothing about a body. -/
theorem ofCode_append_raw (c : CodeAttribute) (name : UInt16) (data : Bytes) (p : Pool) :
    ofCode { c with attributes := c.attributes ++ [⟨name, .raw data⟩] } p = ofCode c p := by
  simp [ofCode, lineEntries, localEntries]

end Body

end Weft
