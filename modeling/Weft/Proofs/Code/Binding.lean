import Weft.Proofs.Code.Spelling
import Weft.Proofs.Code.Splicing

/-!
# References in code that is read

Code is read just if its bytes spell instructions, its branches, switches and handlers lead to
instructions, the ranges of its handlers are those of instructions, and its constants are in the pool.
Each offset that something refers to gets one label, numbered in increasing order and placed at the
offset, and all references are by the labels of the offsets that they named. Lines and variables that
do not stand at instructions are left out.
-/

namespace Weft

/-! ## What code refers to -/

namespace CodeAttribute

variable (c : CodeAttribute) (located : List Located)

/-- The offsets at which instructions stand, and the end of the code. -/
def boundaries : List Nat := located.map (·.offset) ++ [c.code.length]

/-- The lines that stand at instructions. -/
def keptLines : List LineNumber :=
  (lineEntries c.attributes).filter fun l => l.startPc.toNat ∈ located.map (·.offset)

/-- The variables whose ranges start and end at instructions, or at the end of the code. -/
def keptLocals : List LocalVariable :=
  (localEntries c.attributes).filter fun v =>
    v.startOffset ∈ c.boundaries located ∧ v.stopOffset ∈ c.boundaries located

/-- The offsets that are named by branches and switches, handlers, and what is kept of the tables. -/
def named : List Nat :=
  located.flatMap Located.targetOffsets ++ (c.exceptions.flatMap ExceptionEntry.offsets ++
    ((c.keptLines located).map (·.startPc.toNat) ++
      (c.keptLocals located).flatMap fun v => [v.startOffset, v.stopOffset]))

/-- The handler covers instructions and leads to one. -/
structure HandlesAt (e : ExceptionEntry) : Prop where
  ordered : e.startPc < e.endPc
  start : e.startPc.toNat ∈ located.map (·.offset)
  stop : e.endPc.toNat ∈ c.boundaries located
  target : e.handlerPc.toNat ∈ located.map (·.offset)

/-- Everything that matters to the code stands where it has to. -/
structure Sound (p : Pool) : Prop where
  targets : ∀ i ∈ located, ∀ o ∈ i.targetOffsets, o ∈ located.map (·.offset)
  handlers : ∀ e ∈ c.exceptions, c.HandlesAt located e
  constants : ∀ i ∈ located, ∀ index, i.instruction.constantIndex? = some index →
    index ≠ 0 ∧ index.toNat < p.size

/-- The offsets that are named, in increasing order. -/
def places : List Nat := (c.boundaries located).filter (· ∈ c.named located)

end CodeAttribute

/-- The label of an offset, by its index among the places. -/
def labelOf (places : List Nat) (o : Nat) : Label := ⟨UInt32.ofNat (places.idxOf o)⟩

/-- The label of an offset if it is one of the places. -/
def markOf (places : List Nat) (o : Nat) : List Item :=
  if o ∈ places then [.label (labelOf places o)] else []

/-- The instruction with labels in place of the offsets that it leads to. -/
def Located.bound (places : List Nat) (i : Located) : Instruction :=
  i.instruction.mapLabels fun x => labelOf places x.number.toNat

/-- The body is that of the located instructions, with labels at the places. -/
structure Body.Binds (b : Body) (c : CodeAttribute) (located : List Located)
    (places : List Nat) : Prop where
  sorted : places.Pairwise (· < ·)
  mem_places : ∀ o, o ∈ places ↔ o ∈ c.named located
  labelCount : b.labelCount.toNat = places.length
  instructions : b.instructions = located.map (Located.bound places)
  /-- Each place has its label directly in front of its instruction, or at the end. -/
  code : b.code = located.flatMap (fun i => markOf places i.offset ++ [.op (i.bound places)]) ++
    markOf places c.code.length
  /-- Each label is placed once, in the order of their numbers. -/
  labels : b.code.filterMap Item.label? =
    (List.range places.length).map fun n => ⟨UInt32.ofNat n⟩
  position : ∀ o ∈ places, ∀ n, (c.boundaries located)[n]? = some o →
    b.position? (labelOf places o) = some n
  handlers : b.handlers = c.exceptions.map fun e => ⟨labelOf places e.startPc.toNat,
    labelOf places e.endPc.toNat, labelOf places e.handlerPc.toNat, e.catchType⟩
  lines : b.lines = (c.keptLines located).map fun l => (labelOf places l.startPc.toNat, l.line)
  locals : b.locals = (c.keptLocals located).map fun v => ⟨labelOf places v.startOffset,
    labelOf places v.stopOffset, v.name, v.descriptor, v.index⟩
  maxStack : b.maxStack = c.maxStack
  maxLocals : b.maxLocals = c.maxLocals

/-! ## Bounds -/

theorem Label.FarSpelled.bound {offset : Nat} {x : Label} {bs : Bytes}
    (h : x.FarSpelled offset bs) : x.number.toNat ≤ 65535 := by
  cases h with
  | distance d place => exact place.bound

theorem Operand.Spelled.bound {offset : Nat} {kind : OperandKind} {o : Operand} {bs : Bytes}
    (h : o.Spelled offset kind bs) : ∀ x ∈ o.targets, x.number.toNat ≤ 65535 := by
  cases h with
  | branch2 d place =>
    intro x mem
    rw [List.mem_singleton.1 mem]
    exact place.bound
  | branch4 target =>
    intro x mem
    rw [List.mem_singleton.1 mem]
    exact target.bound
  | tableSwitch padded otherwise count ordered each =>
    intro x mem
    rcases List.mem_cons.1 mem with rfl | mem
    · exact otherwise.bound
    · obtain ⟨bs, -, spelled⟩ := forall₂_mem_left each mem
      exact spelled.bound
  | lookupSwitch padded otherwise many each =>
    intro x mem
    rcases List.mem_cons.1 mem with rfl | mem
    · exact otherwise.bound
    · obtain ⟨p, listed, rfl⟩ := List.mem_map.1 mem
      obtain ⟨bs, -, ⟨key, target⟩⟩ := forall₂_mem_left each listed
      exact target.bound
  | _ => exact fun x mem => nomatch mem

theorem Instruction.Spelled.bound {offset : Nat} {i : Instruction} {bs : Bytes}
    (h : i.Spelled offset bs) : ∀ x ∈ i.targets, x.number.toNat ≤ 65535 := by
  cases h with
  | plain narrow spelled => exact spelled.bound
  | wide spelled => cases spelled <;> exact fun x mem => nomatch mem

/-- Instructions lead to offsets of sixteen bits. -/
theorem Located.Spelled.bound {offset : Nat} {located : List Located} {bs : Bytes}
    (h : Located.Spelled offset located bs) :
    ∀ o ∈ located.flatMap Located.targetOffsets, o ≤ 65535 := by
  induction h with
  | nil offset => exact fun o mem => nomatch mem
  | cons first behind ih =>
    intro o mem
    rcases List.mem_append.1 mem with mem | mem
    · obtain ⟨x, led, rfl⟩ := List.mem_map.1 mem
      exact first.bound x led
    · exact ih o mem

/-- Few enough offsets are named to have labels of their own. -/
theorem CodeAttribute.bound_of_mem_named {c : CodeAttribute} {located : List Located}
    (spelled : Located.Spelled 0 located c.code) : ∀ o ∈ c.named located, o ≤ 131070 := by
  intro o mem
  simp only [named, List.mem_append, List.mem_flatMap (l := c.exceptions), List.mem_map,
    List.mem_flatMap (l := c.keptLocals located)] at mem
  rcases mem with mem | ⟨e, -, mem⟩ | ⟨l, -, rfl⟩ | ⟨v, -, mem⟩
  · exact Nat.le_trans (spelled.bound o mem) (by decide)
  · have := e.startPc.toNat_lt
    have := e.endPc.toNat_lt
    have := e.handlerPc.toNat_lt
    simp only [ExceptionEntry.offsets, List.mem_cons, List.not_mem_nil, or_false] at mem
    omega
  · have := l.startPc.toNat_lt
    omega
  · have := v.startPc.toNat_lt
    have := v.length.toNat_lt
    simp only [LocalVariable.startOffset, LocalVariable.stopOffset, List.mem_cons,
      List.not_mem_nil, or_false] at mem
    omega

/-! ## Labels -/

theorem Instruction.mapLabels_congr {f g : Label → Label} {i : Instruction}
    (same : ∀ x ∈ i.targets, f x = g x) : i.mapLabels f = i.mapLabels g := by
  obtain ⟨op, operand⟩ := i
  cases operand with
  | branch target => simp [mapLabels, Operand.mapLabels, same target List.mem_cons_self]
  | tableSwitch default low targets =>
    have rest : targets.map f = targets.map g :=
      List.map_congr_left fun x mem => same x (List.mem_cons_of_mem _ mem)
    simp [mapLabels, Operand.mapLabels, same default List.mem_cons_self, rest]
  | lookupSwitch default pairs =>
    have rest : pairs.map (fun p => (p.1, f p.2)) = pairs.map fun p => (p.1, g p.2) :=
      List.map_congr_left fun p mem => by
        rw [same p.2 (List.mem_cons_of_mem _ (List.mem_map_of_mem mem))]
    simp only [mapLabels, Operand.mapLabels, same default List.mem_cons_self, rest]
  | _ => rfl

/-- The labels of places are numbered in their order. -/
theorem map_labelOf {places : List Nat} (sorted : places.Pairwise (· < ·)) :
    places.map (labelOf places) = (List.range places.length).map fun n => ⟨UInt32.ofNat n⟩ := by
  have distinct : places.Nodup := sorted.imp Nat.ne_of_lt
  refine List.ext_getElem (by simp) fun n here there => ?_
  simp only [List.getElem_map, List.getElem_range, labelOf, distinct.idxOf_getElem]

namespace CodeAttribute

variable {c : CodeAttribute} {located : List Located} {o : Nat}

/-- The labels of the places. -/
def labelTable (c : CodeAttribute) (located : List Located) : LabelTable :=
  .number (.ofList (c.named located)) (c.boundaries located)

theorem filter_named (c : CodeAttribute) (located : List Located) :
    (c.boundaries located).filter (Std.HashSet.ofList (c.named located)).contains =
      c.places located :=
  List.filter_congr fun o _ => by simp [Std.HashSet.contains_ofList]

section Spelled

variable (spelled : Located.Spelled 0 located c.code)

include spelled

theorem sorted_boundaries : (c.boundaries located).Pairwise (· < ·) :=
  (Located.adjoin_of_ofBytes (Located.ofBytes_eq_ok_iff.2 spelled)).sorted

theorem lt_length_of_start (start : o ∈ located.map (·.offset)) : o < c.code.length := by
  obtain ⟨i, within, rfl⟩ := List.mem_map.1 start
  exact ((Located.adjoin_of_ofBytes (Located.ofBytes_eq_ok_iff.2 spelled)).bounds within).2.1

theorem le_length_of_boundary (boundary : o ∈ c.boundaries located) : o ≤ c.code.length := by
  rcases List.mem_append.1 boundary with start | last
  · exact Nat.le_of_lt (lt_length_of_start spelled start)
  · exact Nat.le_of_eq (List.mem_singleton.1 last)

theorem isStart_eq (o : Nat) : (Boundaries.ofCode located c.code.length).isStart o =
    decide (o ∈ located.map (·.offset)) := by
  rw [Bool.eq_iff_iff, Boundaries.isStart_iff, decide_eq_true_eq]
  exact ⟨And.right, fun start => ⟨Nat.ne_of_lt (lt_length_of_start spelled start), start⟩⟩

theorem sorted_places : (c.places located).Pairwise (· < ·) := (sorted_boundaries spelled).filter _

theorem length_places : (c.places located).length ≤ 131071 :=
  Layout.length_le_of_sorted (sorted_places spelled) fun o mem =>
    bound_of_mem_named spelled o (by simpa using (List.mem_filter.1 mem).2)

theorem getElem?_labelTable (o : Nat) : (c.labelTable located)[o]? =
    if o ∈ c.places located then some (labelOf (c.places located) o) else none := by
  have listed (i : Nat) : ((c.boundaries located).filter
      (Std.HashSet.ofList (c.named located)).contains)[i]? = (c.places located)[i]? := by
    rw [filter_named]
  split
  · rename_i mem
    refine (LabelTable.number_eq_some_iff (sorted_boundaries spelled)).2 ⟨_, ?_, rfl⟩
    have bound := List.idxOf_lt_length_of_mem mem
    rw [listed, List.getElem?_eq_getElem bound, List.getElem_idxOf]
  · rename_i absent
    refine Option.eq_none_iff_forall_ne_some.2 fun x found => absent ?_
    obtain ⟨i, here, -⟩ := (LabelTable.number_eq_some_iff (sorted_boundaries spelled)).1 found
    exact List.mem_of_getElem? ((listed i).symm.trans here)

theorem size_labelTable : (c.labelTable located).size = (c.places located).length := by
  rw [labelTable, LabelTable.number,
    Std.HashMap.size_ofList (LabelTable.distinct_keys (sorted_boundaries spelled)), filter_named,
    List.length_map, List.length_zipIdx]

theorem label_labelTable (mem : o ∈ c.places located) :
    (c.labelTable located).label o = labelOf (c.places located) o := by
  rw [LabelTable.label, Std.HashMap.getD_eq_getD_getElem?, getElem?_labelTable spelled, if_pos mem]
  rfl

theorem mark_labelTable (o : Nat) :
    (c.labelTable located).mark o = markOf (c.places located) o := by
  rw [LabelTable.mark, getElem?_labelTable spelled, markOf]
  split
  · rename_i found
    split at found
    · cases found
      rw [if_pos ‹_›]
    · cases found
  · rename_i absent
    split at absent
    · cases absent
    · rw [if_neg ‹_›]

end Spelled

/-! ## Checks -/

variable {p : Pool} {e : ExceptionEntry}

theorem isBoundary_eq (c : CodeAttribute) (located : List Located) (o : Nat) :
    (Boundaries.ofCode located c.code.length).isBoundary o =
      decide (o ∈ c.boundaries located) := by
  rw [Bool.eq_iff_iff, Boundaries.isBoundary_iff, decide_eq_true_eq, boundaries]

theorem filter_locals : ((localEntries c.attributes).filter fun v =>
    (Boundaries.ofCode located c.code.length).isBoundary v.startOffset &&
      (Boundaries.ofCode located c.code.length).isBoundary v.stopOffset) =
        c.keptLocals located := by
  simp only [isBoundary_eq, ← Bool.decide_and]
  rfl

theorem constantInRange_iff {i : Instruction} : Body.constantInRange p i = true ↔
    ∀ index, i.constantIndex? = some index → index ≠ 0 ∧ index.toNat < p.size := by
  unfold Body.constantInRange
  cases i.constantIndex? with
  | none => simp
  | some index => simp

section Spelled

variable (spelled : Located.Spelled 0 located c.code)

include spelled

theorem checkTargets_iff {i : Located} :
    (Boundaries.ofCode located c.code.length).checkTargets i = .ok () ↔
      ∀ o ∈ i.targetOffsets, o ∈ located.map (·.offset) := by
  constructor
  case mp =>
    intro checked o mem
    have start := Boundaries.isStart_of_checkTargets checked o mem
    rwa [isStart_eq spelled, decide_eq_true_eq] at start
  case mpr =>
    intro starts
    refine Boundaries.checkTargets_ok fun o mem => ?_
    rw [isStart_eq spelled, decide_eq_true_eq]
    exact starts o mem

/-- A range of code that is not empty starts at an instruction if it starts at a boundary. -/
theorem checkException_iff : (Boundaries.ofCode located c.code.length).checkException e = .ok () ↔
    c.HandlesAt located e := by
  unfold Boundaries.checkException
  rw [isStart_eq spelled, isBoundary_eq, isBoundary_eq]
  constructor
  case mp =>
    intro checked
    split at checked
    · rename_i holds
      simp only [Bool.and_eq_true, decide_eq_true_eq] at holds
      obtain ⟨⟨⟨ordered, start⟩, stop⟩, target⟩ := holds
      refine ⟨ordered, ?_, stop, target⟩
      rcases List.mem_append.1 start with start | last
      · exact start
      · have := UInt16.lt_iff_toNat_lt.1 ordered
        have := le_length_of_boundary spelled stop
        have := List.mem_singleton.1 last
        omega
    · cases checked
  case mpr =>
    rintro ⟨ordered, start, stop, target⟩
    rw [if_pos]
    simp only [Bool.and_eq_true, decide_eq_true_eq]
    exact ⟨⟨⟨ordered, List.mem_append_left _ start⟩, stop⟩, target⟩

theorem filter_lines : ((lineEntries c.attributes).filter fun l =>
    (Boundaries.ofCode located c.code.length).isStart l.startPc.toNat) = c.keptLines located := by
  simp only [isStart_eq spelled]
  rfl

end Spelled

/-! ## Bodies -/

/-- The body of the code, by the labels of a table. -/
def bodyWith (c : CodeAttribute) (located : List Located) (table : LabelTable) : Body where
  maxStack := c.maxStack
  maxLocals := c.maxLocals
  code := located.flatMap table.items ++ table.mark c.code.length
  handlers := c.exceptions.map fun e => ⟨table.label e.startPc.toNat,
    table.label e.endPc.toNat, table.label e.handlerPc.toNat, e.catchType⟩
  lines := (c.keptLines located).map fun l => (table.label l.startPc.toNat, l.line)
  locals := (c.keptLocals located).map fun v =>
    ⟨table.label v.startOffset, table.label v.stopOffset, v.name, v.descriptor, v.index⟩
  labelCount := UInt32.ofNat table.size

theorem instructions_bodyWith (c : CodeAttribute) (located : List Located) (table : LabelTable) :
    (c.bodyWith located table).instructions = located.map fun i =>
      i.instruction.mapLabels fun l => table.label l.number.toNat :=
  LabelTable.instructions_code table located c.code.length

/-- Reading is looking at the instructions, checking them, and naming places by labels. -/
theorem ofCode_eq (spelled : Located.Spelled 0 located c.code) (p : Pool) : Body.ofCode c p = (do
    located.forM (Boundaries.ofCode located c.code.length).checkTargets
    c.exceptions.forM (Boundaries.ofCode located c.code.length).checkException
    let body := c.bodyWith located (c.labelTable located)
    match body.instructions.find? (!Body.constantInRange p ·) with
    | some i => throw (.malformed (.constantOperand i))
    | none => return body) := by
  unfold Body.ofCode
  rw [Located.ofBytes_eq_ok_iff.2 spelled]
  show (do
    located.forM (Boundaries.ofCode located c.code.length).checkTargets
    c.exceptions.forM (Boundaries.ofCode located c.code.length).checkException
    _ : Except Error Body) = _
  simp only [filter_lines spelled, filter_locals]
  rfl

/-- Code is read just if it is sound, and then as its body. -/
theorem ofCode_eq_ok_iff (spelled : Located.Spelled 0 located c.code) {b : Body} :
    Body.ofCode c p = .ok b ↔
      c.Sound located p ∧ b = c.bodyWith located (c.labelTable located) := by
  have in_range : (c.bodyWith located (c.labelTable located)).instructions.find?
      (!Body.constantInRange p ·) = none ↔ ∀ i ∈ located, ∀ index,
        i.instruction.constantIndex? = some index → index ≠ 0 ∧ index.toNat < p.size := by
    rw [List.find?_eq_none, instructions_bodyWith, List.forall_mem_map]
    refine forall₂_congr fun i _ => ?_
    rw [Bool.not_eq_true, Bool.not_eq_false', constantInRange_iff,
      Instruction.constantIndex?_mapLabels]
  rw [ofCode_eq spelled]
  constructor
  case mp =>
    intro h
    obtain ⟨⟨⟩, targets, h⟩ := except_bind_eq_ok.1 h
    obtain ⟨⟨⟩, exceptions, h⟩ := except_bind_eq_ok.1 h
    dsimp only at h
    split at h
    · cases h
    · rename_i known
      cases h
      exact ⟨⟨fun i mem => (checkTargets_iff spelled).1 (except_forM_eq_ok targets i mem),
        fun e mem => (checkException_iff spelled).1 (except_forM_eq_ok exceptions e mem),
        in_range.1 known⟩, rfl⟩
  case mpr =>
    rintro ⟨⟨targets, handlers, constants⟩, rfl⟩
    refine except_bind_eq_ok.2 ⟨(), except_forM_ok fun i mem =>
      (checkTargets_iff spelled).2 (targets i mem), except_bind_eq_ok.2 ⟨(), except_forM_ok
        fun e mem => (checkException_iff spelled).2 (handlers e mem), ?_⟩⟩
    dsimp only
    rw [in_range.2 constants]
    rfl

/-- What is named by sound code stands at a boundary. -/
theorem mem_places_iff (sound : c.Sound located p) : o ∈ c.places located ↔ o ∈ c.named located := by
  rw [places, List.mem_filter, decide_eq_true_eq, and_iff_right_iff_imp]
  intro mem
  simp only [named, List.mem_append, List.mem_flatMap, List.mem_map] at mem
  rcases mem with ⟨i, within, mem⟩ | ⟨e, listed, mem⟩ | ⟨l, kept, rfl⟩ | ⟨v, kept, mem⟩
  · exact List.mem_append_left _ (sound.targets i within o mem)
  · have handles := sound.handlers e listed
    simp only [ExceptionEntry.offsets, List.mem_cons, List.not_mem_nil, or_false] at mem
    rcases mem with rfl | rfl | rfl
    · exact List.mem_append_left _ handles.start
    · exact handles.stop
    · exact List.mem_append_left _ handles.target
  · exact List.mem_append_left _ (by simpa using (List.mem_filter.1 kept).2)
  · have inside := (List.mem_filter.1 kept).2
    rw [decide_eq_true_eq] at inside
    simp only [List.mem_cons, List.not_mem_nil, or_false] at mem
    rcases mem with rfl | rfl
    · exact inside.1
    · exact inside.2

theorem named_of_target {i : Located} (within : i ∈ located) (led : o ∈ i.targetOffsets) :
    o ∈ c.named located :=
  List.mem_append_left _ (List.mem_flatMap.2 ⟨i, within, led⟩)

theorem named_of_exception (listed : e ∈ c.exceptions) (mem : o ∈ e.offsets) :
    o ∈ c.named located :=
  List.mem_append_right _ (List.mem_append_left _ (List.mem_flatMap.2 ⟨e, listed, mem⟩))

theorem named_of_line {l : LineNumber} (kept : l ∈ c.keptLines located) :
    l.startPc.toNat ∈ c.named located :=
  List.mem_append_right _ (List.mem_append_right _ (List.mem_append_left _
    (List.mem_map_of_mem kept)))

theorem named_of_local {v : LocalVariable} (kept : v ∈ c.keptLocals located)
    (mem : o ∈ [v.startOffset, v.stopOffset]) : o ∈ c.named located :=
  List.mem_append_right _ (List.mem_append_right _ (List.mem_append_right _
    (List.mem_flatMap.2 ⟨v, kept, mem⟩)))

theorem labels_bodyWith (spelled : Located.Spelled 0 located c.code) :
    (c.bodyWith located (c.labelTable located)).code.filterMap Item.label? =
    (List.range (c.places located).length).map fun n => ⟨UInt32.ofNat n⟩ := by
  have listed : (c.places located).map (labelOf (c.places located)) =
      (c.boundaries located).filterMap fun o =>
        if decide (o ∈ c.named located) then some (labelOf (c.places located) o) else none := by
    rw [← List.filterMap_eq_map]
    exact List.filterMap_filter
  rw [bodyWith, LabelTable.labels_code, ← map_labelOf (sorted_places spelled), listed]
  refine List.filterMap_congr fun o boundary => ?_
  have boundary : o ∈ c.boundaries located := boundary
  have place : o ∈ c.places located ↔ o ∈ c.named located := by
    rw [places, List.mem_filter, decide_eq_true_eq, and_iff_right boundary]
  rw [getElem?_labelTable spelled]
  simp only [place, decide_eq_true_eq]

theorem position_bodyWith (spelled : Located.Spelled 0 located c.code)
    (mem : o ∈ c.places located) {n : Nat}
    (there : (c.boundaries located)[n]? = some o) :
    (c.bodyWith located (c.labelTable located)).position? (labelOf (c.places located) o) =
      some n := by
  have few := Nat.le_trans (length_places spelled) (by decide : 131071 ≤ 4294967296)
  rw [← filter_named] at few
  have numbers := LabelTable.numbers_number (sorted_boundaries spelled) few
  refine numbers.position_code (sorted_boundaries spelled) there ?_
  show (c.labelTable located)[o]? = _
  rw [getElem?_labelTable spelled, if_pos mem]

section Sound

variable (spelled : Located.Spelled 0 located c.code) (sound : c.Sound located p)

include spelled sound

theorem label_of_named (mem : o ∈ c.named located) :
    (c.labelTable located).label o = labelOf (c.places located) o :=
  label_labelTable spelled ((mem_places_iff sound).2 mem)

theorem bound_eq {i : Located} (within : i ∈ located) :
    i.instruction.mapLabels (fun l => (c.labelTable located).label l.number.toNat) =
      i.bound (c.places located) :=
  Instruction.mapLabels_congr fun _ led =>
    label_of_named spelled sound (named_of_target within (List.mem_map_of_mem led))

/-- The body of sound code has everything in its place. -/
theorem binds_bodyWith :
    (c.bodyWith located (c.labelTable located)).Binds c located (c.places located) := by
  constructor
  case sorted => exact sorted_places spelled
  case mem_places => exact fun o => mem_places_iff sound
  case labelCount =>
    have few := length_places spelled
    show (UInt32.ofNat (c.labelTable located).size).toNat = _
    rw [size_labelTable spelled, UInt32.toNat_ofNat', Nat.mod_eq_of_lt (by omega)]
  case instructions =>
    rw [instructions_bodyWith]
    exact List.map_congr_left fun i within => bound_eq spelled sound within
  case code =>
    show located.flatMap (c.labelTable located).items ++ (c.labelTable located).mark _ = _
    rw [mark_labelTable spelled]
    congr 1
    refine List.flatMap_congr fun i within => ?_
    rw [LabelTable.items, mark_labelTable spelled, bound_eq spelled sound within]
  case labels => exact labels_bodyWith spelled
  case position => exact fun o mem n there => position_bodyWith spelled mem there
  case handlers =>
    refine List.map_congr_left fun e listed => ?_
    have place {o : Nat} (mem : o ∈ e.offsets) :=
      label_of_named spelled sound (named_of_exception listed mem)
    rw [place (.head _), place (.tail _ (.head _)), place (.tail _ (.tail _ (.head _)))]
  case lines =>
    refine List.map_congr_left fun l kept => ?_
    rw [label_of_named spelled sound (named_of_line kept)]
  case locals =>
    refine List.map_congr_left fun v kept => ?_
    have place {o : Nat} (mem : o ∈ [v.startOffset, v.stopOffset]) :=
      label_of_named spelled sound (named_of_local kept mem)
    rw [place (.head _), place (.tail _ (.head _))]
  case maxStack => rfl
  case maxLocals => rfl

end Sound

end CodeAttribute

/-- Code is read just if its bytes spell instructions in which everything stands where it has to, and
then all references of the body are to what they named. -/
theorem Body.ofCode_binds (c : CodeAttribute) (p : Pool) :
    ((∃ b, Body.ofCode c p = .ok b) ↔
      ∃ located, Located.Spelled 0 located c.code ∧ c.Sound located p) ∧
    ∀ b, Body.ofCode c p = .ok b → ∃ located places, Located.Spelled 0 located c.code ∧
      c.Sound located p ∧ b.Binds c located places := by
  have reads {b : Body} (h : Body.ofCode c p = .ok b) :
      ∃ located, Located.Spelled 0 located c.code := by
    obtain ⟨located, read, -⟩ := except_bind_eq_ok.1 h
    exact ⟨located, Located.ofBytes_eq_ok_iff.1 read⟩
  refine ⟨⟨?_, ?_⟩, ?_⟩
  · rintro ⟨b, h⟩
    obtain ⟨located, spelled⟩ := reads h
    exact ⟨located, spelled, ((CodeAttribute.ofCode_eq_ok_iff spelled).1 h).1⟩
  · rintro ⟨located, spelled, sound⟩
    exact ⟨_, (CodeAttribute.ofCode_eq_ok_iff spelled).2 ⟨sound, rfl⟩⟩
  · intro b h
    obtain ⟨located, spelled⟩ := reads h
    obtain ⟨sound, rfl⟩ := (CodeAttribute.ofCode_eq_ok_iff spelled).1 h
    exact ⟨located, _, spelled, sound, CodeAttribute.binds_bodyWith spelled sound⟩

end Weft
