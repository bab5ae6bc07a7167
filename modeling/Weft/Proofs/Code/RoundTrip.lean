import Weft.Proofs.ClassFile.Growth
import Weft.Proofs.Code.Labelling
import Weft.Proofs.Code.Reread

/-!
# Bodies written and read back

A body whose instructions have the operands of their opcodes, whose labels are placed once and
whose jumps and handlers lead to instructions is read back from the code that is written for it:
with the same instructions, and with labels at the positions at which its own labels stand.
-/

namespace Weft

namespace Body

/-! ## Places -/

/-- The number of instructions before a label. -/
def position? (b : Body) (x : Label) : Option Nat := Weft.position? x b.code

/-- Fewer instructions are before the first label than before the second. -/
def isBefore (b : Body) (x y : Label) : Bool :=
  match b.position? x, b.position? y with
  | some m, some n => m < n
  | _, _ => false

/-- An instruction follows the label. -/
def isInside (b : Body) (x : Label) : Bool :=
  (b.position? x).any (· < b.instructions.length)

/-- The handler covers code. -/
def covers (b : Body) (h : Handler) : Bool := b.isBefore h.start h.stop

/-- The label at which the range of a variable ends, not before it starts. -/
def stopOf (b : Body) (v : LocalRange) : Label := if b.isBefore v.stop v.start then v.start else v.stop

/-- The labels whose places count: those of jumps, of handlers over code, of lines before the end
and of variables. -/
def places (b : Body) : List Label :=
  b.instructions.flatMap Instruction.targets ++
    ((b.handlers.filter b.covers).flatMap (fun h => [h.start, h.stop, h.target]) ++
      ((b.lines.filter fun l => b.isInside l.1).map (·.1) ++
        b.locals.flatMap fun v => [v.start, b.stopOf v]))

/-- What is asked of a body that is to be read back with a pool. -/
structure Shaped (b : Body) (p : Pool) : Prop where
  instructions : ∀ i ∈ b.instructions, i.WellShaped
  constants : ∀ i ∈ b.instructions, constantInRange p i = true
  once : (b.code.filterMap Item.label?).Nodup
  targets : ∀ x ∈ b.instructions.flatMap Instruction.targets, ∀ n, b.position? x = some n →
    n < b.instructions.length
  entries : ∀ h ∈ b.handlers, ∀ n, b.position? h.target = some n → n < b.instructions.length

/-- The second body is the first with other names for its labels, without the handlers that cover
no code and the lines at the end; each label stands where it did. -/
structure Renamed (f : Label → Label) (b b' : Body) : Prop where
  maxStack : b'.maxStack = b.maxStack
  maxLocals : b'.maxLocals = b.maxLocals
  instructions : b'.instructions = b.instructions.map (·.mapLabels f)
  handlers : b'.handlers = (b.handlers.filter b.covers).map (·.mapLabels f)
  lines : b'.lines = (b.lines.filter fun l => b.isInside l.1).map fun l => (f l.1, l.2)
  locals : b'.locals = b.locals.map fun v => { v with start := f v.start, stop := f (b.stopOf v) }
  places : ∀ x ∈ b.places, ∃ n, b.position? x = some n ∧ b'.position? (f x) = some n

end Body

/-! ## What is written -/

namespace Body

/-- A table is written if there is something to list. -/
theorem steps_of_table {α : Type} {nothing : Bool} {entries : Except Error (List α)} {name : String}
    {table : List α → AttributeBody} {p q : Pool} {attributes : List Attribute}
    (h : (do
      if nothing then return []
      let entries ← entries
      return [← Attribute.named name (table entries)] : Edit Pool (List Attribute)) p =
        .ok attributes q) :
    nothing = true ∧ attributes = [] ∧ q = p ∨ ∃ rows a, entries = .ok rows ∧
      Attribute.named name (table rows) p = (a, q) ∧ attributes = [a] := by
  split at h
  · obtain ⟨rfl, rfl⟩ := step_pure_eq_ok.1 h
    exact .inl ⟨‹_›, rfl, rfl⟩
  · obtain ⟨rows, p', lifted, h⟩ := step_bind_eq_ok.1 h
    obtain ⟨made, rfl⟩ := edit_lift_eq_ok.1 lifted
    obtain ⟨a, p', named, h⟩ := step_bind_eq_ok.1 h
    obtain ⟨rfl, rfl⟩ := step_pure_eq_ok.1 h
    exact .inr ⟨rows, a, made, edit_change_eq_ok.1 named, rfl⟩

theorem lineAttributes_eq_ok {b : Body} {l : Layout} {p q : Pool} {attributes : List Attribute}
    (h : b.lineAttributes l p = .ok attributes q) :
    l.lineTable b.lines = .ok (lineEntries attributes) ∧ localEntries attributes = [] ∧
      p.GrowsTo q := by
  rcases steps_of_table h with ⟨none, rfl, rfl⟩ | ⟨rows, a, made, named, rfl⟩
  · rw [List.isEmpty_iff.1 none]
    exact ⟨rfl, rfl, .refl _⟩
  · refine ⟨?_, ?_, (Attribute.grows_named _ _).made named⟩
    all_goals cases named
    · simpa [lineEntries] using made
    · rfl

theorem localAttributes_eq_ok {b : Body} {l : Layout} {p q : Pool} {attributes : List Attribute}
    (h : b.localAttributes l p = .ok attributes q) :
    b.locals.mapM l.localEntry = .ok (localEntries attributes) ∧ lineEntries attributes = [] ∧
      p.GrowsTo q := by
  rcases steps_of_table h with ⟨none, rfl, rfl⟩ | ⟨rows, a, made, named, rfl⟩
  · rw [List.isEmpty_iff.1 none]
    exact ⟨rfl, rfl, .refl _⟩
  · refine ⟨?_, ?_, (Attribute.grows_named _ _).made named⟩
    all_goals cases named
    · simpa [localEntries] using made
    · rfl

/-- The parts of the code that is written for a body. -/
structure Written (b : Body) (l : Layout) (c : CodeAttribute) : Prop where
  layout : Layout.ofCode b.code = .ok l
  code : l.bytes = .ok c.code
  exceptions : l.exceptionTable b.handlers = .ok c.exceptions
  lines : l.lineTable b.lines = .ok (lineEntries c.attributes)
  locals : b.locals.mapM l.localEntry = .ok (localEntries c.attributes)
  maxStack : c.maxStack = b.maxStack
  maxLocals : c.maxLocals = b.maxLocals

/-- The pool is changed for the names of the tables only. -/
theorem steps_of_toCode {b : Body} {p q : Pool} {c : CodeAttribute} (h : b.toCode p = .ok c q) :
    ∃ l code exceptions lines p₁ locals, Layout.ofCode b.code = .ok l ∧ l.bytes = .ok code ∧
      l.exceptionTable b.handlers = .ok exceptions ∧ b.lineAttributes l p = .ok lines p₁ ∧
      b.localAttributes l p₁ = .ok locals q ∧
      c = ⟨b.maxStack, b.maxLocals, code, exceptions, lines ++ locals⟩ := by
  obtain ⟨l, p', lifted, h⟩ := step_bind_eq_ok.1 h
  obtain ⟨layout, rfl⟩ := edit_lift_eq_ok.1 lifted
  obtain ⟨code, p', lifted, h⟩ := step_bind_eq_ok.1 h
  obtain ⟨bytes, rfl⟩ := edit_lift_eq_ok.1 lifted
  obtain ⟨exceptions, p', lifted, h⟩ := step_bind_eq_ok.1 h
  obtain ⟨table, rfl⟩ := edit_lift_eq_ok.1 lifted
  obtain ⟨lines, p₁, named_lines, h⟩ := step_bind_eq_ok.1 h
  obtain ⟨locals, p₂, named_locals, h⟩ := step_bind_eq_ok.1 h
  obtain ⟨rfl, rfl⟩ := step_pure_eq_ok.1 h
  exact ⟨l, code, exceptions, lines, p₁, locals, layout, bytes, table, named_lines, named_locals,
    rfl⟩

theorem toCode_eq_ok {b : Body} {p q : Pool} {c : CodeAttribute} (h : b.toCode p = .ok c q) :
    p.GrowsTo q ∧ ∃ l, b.Written l c := by
  obtain ⟨l, code, exceptions, lines, p₁, locals, layout, bytes, table, named_lines, named_locals,
    rfl⟩ := steps_of_toCode h
  obtain ⟨in_lines, no_locals, grown⟩ := lineAttributes_eq_ok named_lines
  obtain ⟨in_locals, no_lines, grown'⟩ := localAttributes_eq_ok named_locals
  refine ⟨grown.trans grown', l, layout, bytes, table, ?_, ?_, rfl, rfl⟩
  · simp only [lineEntries, List.flatMap_append] at in_lines no_lines ⊢
    rw [no_lines, List.append_nil]
    exact in_lines
  · simp only [localEntries, List.flatMap_append] at in_locals no_locals ⊢
    rw [no_locals, List.nil_append]
    exact in_locals

end Body

/-! ## Offsets -/

namespace Layout

/-- The offsets of the instructions and of the end. -/
def boundaries (l : Layout) : List Nat := starts l.items ++ [l.size]

section Offsets

variable {b : Body} {l : Layout}

theorem Settled.length_starts (s : Settled b.code l) :
    (starts l.items).length = b.instructions.length := by
  rw [Layout.length_starts, s.items]
  rfl

/-- What sixteen bits hold of the offset of a label is the offset. -/
theorem Settled.offsetOf_pc (s : Settled b.code l) (once : (b.code.filterMap Item.label?).Nodup)
    {x : Label} {u : UInt16} (h : l.pc x = .ok u) : l.offsetOf x = .ok u.toNat := by
  obtain ⟨o, ho, rfl⟩ := except_map_eq_ok.1 h
  have := s.near once x o ho
  rw [ho, UInt16.toNat_ofNat_of_lt' (show o < 65536 by omega)]

theorem Settled.toNat_mark (s : Settled b.code l) (once : (b.code.filterMap Item.label?).Nodup)
    {x : Label} {o : Nat} (h : l.offsetOf x = .ok o) : (l.mark x).number.toNat = o := by
  have := s.near once x o h
  rw [mark_of_offsetOf h]
  exact UInt32.toNat_ofNat_of_lt' (show o < 4294967296 by omega)

theorem Settled.isBefore_iff (s : Settled b.code l) (once : (b.code.filterMap Item.label?).Nodup)
    {x y : Label} {o o' : Nat} (hx : l.offsetOf x = .ok o) (hy : l.offsetOf y = .ok o') :
    b.isBefore x y = true ↔ o < o' := by
  obtain ⟨m, px, at_m⟩ := s.boundary once hx
  obtain ⟨n, py, at_n⟩ := s.boundary once hy
  obtain ⟨hm, rfl⟩ := List.getElem?_eq_some_iff.1 at_m
  obtain ⟨hn, rfl⟩ := List.getElem?_eq_some_iff.1 at_n
  simp only [Body.isBefore, Body.position?, px, py, decide_eq_true_eq]
  exact ⟨List.pairwise_iff_getElem.1 s.contiguous.sorted m n hm hn, fun lt => by
    by_contra not_lt
    rcases Nat.lt_or_eq_of_le (Nat.le_of_not_lt not_lt) with gt | rfl
    · have := List.pairwise_iff_getElem.1 s.contiguous.sorted n m hn hm gt
      omega
    · omega⟩

theorem Settled.isInside_iff (s : Settled b.code l) (once : (b.code.filterMap Item.label?).Nodup)
    {x : Label} {o : Nat} (hx : l.offsetOf x = .ok o) : b.isInside x = true ↔ o < l.size := by
  obtain ⟨n, px, at_n⟩ := s.boundary once hx
  rw [s.contiguous.boundary_lt_iff at_n, s.length_starts]
  simp [Body.isInside, Body.position?, px]

end Offsets

/-! ## Tables -/

/-- The entry is that of the handler. -/
structure IsHandlerEntry (l : Layout) (h : Handler) (e : ExceptionEntry) : Prop where
  start : l.offsetOf h.start = .ok e.startPc.toNat
  stop : l.offsetOf h.stop = .ok e.endPc.toNat
  target : l.offsetOf h.target = .ok e.handlerPc.toNat
  catchType : e.catchType = h.catchType
  covers : e.startPc < e.endPc

/-- The entry is that of the line. -/
structure IsLineEntry (l : Layout) (line : Label × UInt16) (e : LineNumber) : Prop where
  start : l.offsetOf line.1 = .ok e.startPc.toNat
  line : e.line = line.2
  inside : e.startPc.toNat < l.size

/-- The entry is that of the variable, whose range ends at `stop`. -/
structure IsLocalEntry (l : Layout) (stop : Label) (v : LocalRange) (e : LocalVariable) :
    Prop where
  start : l.offsetOf v.start = .ok e.startOffset
  stop : l.offsetOf stop = .ok e.stopOffset
  name : e.name = v.name
  descriptor : e.descriptor = v.descriptor
  index : e.index = v.index

/-- Entries are made of the elements that are kept, in order. -/
theorem forall₂_filter {α β : Type} {f : α → Except Error (Option β)} {keep : α → Bool}
    {R : α → β → Prop} {as : List α} {made : List (Option β)} (h : as.mapM f = .ok made)
    (some_of : ∀ a e, f a = .ok (some e) → keep a = true ∧ R a e)
    (none_of : ∀ a, f a = .ok none → keep a = false) :
    List.Forall₂ R (as.filter keep) (made.filterMap id) := by
  induction except_mapM_eq_ok.1 h with
  | nil => exact .nil
  | @cons a e as made head tail ih =>
    have rest := ih (except_mapM_eq_ok.2 tail)
    cases e with
    | none => simpa [none_of a head] using rest
    | some e =>
      obtain ⟨kept, related⟩ := some_of a e head
      simpa [kept] using ⟨related, rest⟩

section Tables

variable {b : Body} {l : Layout}

theorem Settled.exceptionTable (s : Settled b.code l)
    (once : (b.code.filterMap Item.label?).Nodup) {entries : List ExceptionEntry}
    (h : l.exceptionTable b.handlers = .ok entries) :
    List.Forall₂ l.IsHandlerEntry (b.handlers.filter b.covers) entries := by
  obtain ⟨made, hm, rfl⟩ := except_map_eq_ok.1 h
  refine forall₂_filter hm (fun h e he => ?_) (fun h he => ?_)
  all_goals
    obtain ⟨start, hs, he⟩ := except_bind_eq_ok.1 he
    obtain ⟨stop, ht, he⟩ := except_bind_eq_ok.1 he
    have before := s.isBefore_iff once (s.offsetOf_pc once hs) (s.offsetOf_pc once ht)
    rw [← UInt16.lt_iff_toNat_lt] at before
    split at he
  · rename_i lt
    obtain ⟨target, hg, he⟩ := except_bind_eq_ok.1 he
    cases except_pure_eq_ok.1 he
    exact ⟨before.2 lt, s.offsetOf_pc once hs, s.offsetOf_pc once ht, s.offsetOf_pc once hg, rfl, lt⟩
  · cases except_pure_eq_ok.1 he
  · obtain ⟨target, hg, he⟩ := except_bind_eq_ok.1 he
    cases except_pure_eq_ok.1 he
  · rename_i not_lt
    rw [← Bool.not_eq_true, Body.covers, before]
    exact not_lt

theorem Settled.lineTable (s : Settled b.code l) (once : (b.code.filterMap Item.label?).Nodup)
    {entries : List LineNumber} (h : l.lineTable b.lines = .ok entries) :
    List.Forall₂ l.IsLineEntry (b.lines.filter fun line => b.isInside line.1) entries := by
  obtain ⟨made, hm, rfl⟩ := except_map_eq_ok.1 h
  refine forall₂_filter hm (fun line e he => ?_) (fun line he => ?_)
  all_goals
    obtain ⟨start, hs, he⟩ := except_bind_eq_ok.1 he
    have inside := s.isInside_iff once (s.offsetOf_pc once hs)
    rw [except_pure_eq_ok] at he
    split at he
  · rename_i lt
    cases he
    exact ⟨inside.2 lt, s.offsetOf_pc once hs, rfl, lt⟩
  · cases he
  · cases he
  · rename_i not_lt
    rw [← Bool.not_eq_true, inside]
    exact not_lt

theorem Settled.localEntry (s : Settled b.code l) (once : (b.code.filterMap Item.label?).Nodup)
    {v : LocalRange} {e : LocalVariable} (h : l.localEntry v = .ok e) :
    l.IsLocalEntry (b.stopOf v) v e := by
  obtain ⟨start, hs, h⟩ := except_bind_eq_ok.1 h
  obtain ⟨stop, ht, h⟩ := except_bind_eq_ok.1 h
  cases except_pure_eq_ok.1 h
  have start_at := s.offsetOf_pc once hs
  have stop_at := s.offsetOf_pc once ht
  have before := s.isBefore_iff once stop_at start_at
  refine ⟨start_at, ?_, rfl, rfl, rfl⟩
  simp only [LocalVariable.stopOffset]
  split
  · rename_i le
    have le' := UInt16.le_iff_toNat_le.1 le
    have ordered : b.stopOf v = v.stop := by
      rw [Body.stopOf, if_neg (by rw [before]; omega)]
    rw [ordered, UInt16.toNat_sub_of_le _ _ le, Nat.add_sub_cancel' le', stop_at]
  · rename_i gt
    have gt' : stop.toNat < start.toNat := by
      rw [UInt16.le_iff_toNat_le] at gt
      omega
    rw [Body.stopOf, if_pos (before.2 gt')]
    exact start_at

theorem Settled.localTable (s : Settled b.code l) (once : (b.code.filterMap Item.label?).Nodup)
    {entries : List LocalVariable} (h : b.locals.mapM l.localEntry = .ok entries) :
    List.Forall₂ (fun v e => l.IsLocalEntry (b.stopOf v) v e) b.locals entries :=
  (except_mapM_eq_ok.1 h).imp fun _ _ => s.localEntry once

end Tables

/-! ## Targets -/

section Targets

variable {l : Layout} {offset : Nat} {bs : Bytes}

theorem offsetOf_of_distanceBytes {x : Label} (h : l.distanceBytes offset x = .ok bs) :
    ∃ o, l.offsetOf x = .ok o := by
  obtain ⟨d, found, -⟩ := except_map_eq_ok.1 h
  obtain ⟨o, at_o, -⟩ := distance_eq_ok.1 found
  exact ⟨o, at_o⟩

/-- The targets of an instruction that is written are placed. -/
theorem offsetOf_of_instructionBytes {wide : Bool} {i : Instruction}
    (h : l.instructionBytes offset wide i = .ok bs) {x : Label} (target : x ∈ i.targets) :
    ∃ o, l.offsetOf x = .ok o := by
  obtain ⟨op, operand⟩ := i
  unfold instructionBytes at h
  cases operand with
  | branch y =>
    obtain rfl := List.mem_singleton.1 target
    obtain ⟨d, found, -⟩ := except_bind_eq_ok.1 h
    obtain ⟨o, at_o, -⟩ := distance_eq_ok.1 found
    exact ⟨o, at_o⟩
  | tableSwitch default low targets =>
    obtain ⟨table, ht, -⟩ := except_map_eq_ok.1 h
    obtain ⟨first, rest, hf, -, -, hr, -⟩ := tableBytes_eq_ok.1 ht
    rcases List.mem_cons.1 target with rfl | mem
    · exact offsetOf_of_distanceBytes hf
    · obtain ⟨bs, hx⟩ := except_ok_of_mem_mapM hr mem
      exact offsetOf_of_distanceBytes hx
  | lookupSwitch default pairs =>
    obtain ⟨table, ht, -⟩ := except_map_eq_ok.1 h
    obtain ⟨first, rest, hf, hr, -⟩ := lookupBytes_eq_ok.1 ht
    rcases List.mem_cons.1 target with rfl | mem
    · exact offsetOf_of_distanceBytes hf
    · obtain ⟨pair, hp, rfl⟩ := List.mem_map.1 mem
      obtain ⟨bs, hx⟩ := except_ok_of_mem_mapM hr hp
      obtain ⟨bs, hx, -⟩ := except_bind_eq_ok.1 hx
      exact offsetOf_of_distanceBytes hx
  | _ => cases target

/-- The targets in code that is written are placed. -/
theorem Settled.offsetOf_target {b : Body} (s : Settled b.code l) (h : l.bytes = .ok bs)
    {x : Label} (target : x ∈ b.instructions.flatMap Instruction.targets) :
    ∃ o, l.offsetOf x = .ok o := by
  obtain ⟨parts, written, -⟩ := except_map_eq_ok.1 h
  obtain ⟨i, mem, target⟩ := List.mem_flatMap.1 target
  rw [Body.instructions, ← s.items, List.mem_filterMap] at mem
  obtain ⟨item, mem, is_op⟩ := mem
  obtain ⟨p, hp, rfl⟩ := List.mem_map.1 mem
  have op : p.item = .op i := by
    cases hi : p.item with
    | label y => rw [hi] at is_op; cases is_op
    | op j => rw [hi] at is_op; cases is_op; rfl
  obtain ⟨part, hq⟩ := except_ok_of_mem_mapM written hp
  rw [itemBytes_op op] at hq
  exact offsetOf_of_instructionBytes hq target

end Targets

end Layout

theorem Instruction.targets_mapLabels (f : Label → Label) (i : Instruction) :
    (i.mapLabels f).targets = i.targets.map f := by
  obtain ⟨op, operand⟩ := i
  cases operand <;> simp [targets, mapLabels, Operand.targets, Operand.mapLabels]

theorem Instruction.mapLabels_of_targets {i : Instruction} (h : i.targets = []) (f : Label → Label) :
    i.mapLabels f = i := by
  obtain ⟨op, operand⟩ := i
  cases operand with
  | branch target => cases h
  | tableSwitch default low targets => cases h
  | lookupSwitch default pairs => cases h
  | _ => rfl

theorem Instruction.mapLabels_mapLabels (f g : Label → Label) (i : Instruction) :
    (i.mapLabels f).mapLabels g = i.mapLabels (g ∘ f) := by
  obtain ⟨op, operand⟩ := i
  cases operand <;> simp [mapLabels, Operand.mapLabels]

theorem Instruction.constantIndex?_mapLabels (f : Label → Label) (i : Instruction) :
    (i.mapLabels f).constantIndex? = i.constantIndex? := by
  obtain ⟨op, operand⟩ := i
  cases operand <;> rfl

theorem Body.constantInRange_of_extends {p q : Pool} (grown : p.Extends q) {i : Instruction}
    (h : constantInRange p i = true) : constantInRange q i = true := by
  have size := grown.size_le
  unfold constantInRange at h ⊢
  cases hc : i.constantIndex? with
  | none => rfl
  | some index =>
    simp only [hc, Option.all_some, Bool.and_eq_true, decide_eq_true_eq] at h ⊢
    exact ⟨h.1, by omega⟩

/-! ## What is read -/

namespace Boundaries

variable {located : List Located} {length o : Nat}

theorem isStart_iff : (ofCode located length).isStart o = true ↔
    o ≠ length ∧ o ∈ located.map (·.offset) := by
  simp [isStart, ofCode, Std.HashSet.contains_ofList]

theorem isBoundary_iff : (ofCode located length).isBoundary o = true ↔
    o ∈ located.map (·.offset) ++ [length] := by
  simp [isBoundary, ofCode, Std.HashSet.contains_ofList, or_comm]

theorem checkTargets_ok {boundaries : Boundaries} {i : Located}
    (starts : ∀ o ∈ i.targetOffsets, boundaries.isStart o = true) :
    boundaries.checkTargets i = .ok () := by
  have none : i.targetOffsets.find? (!boundaries.isStart ·) = none :=
    List.find?_eq_none.2 fun o ho => by simp [starts o ho]
  simp only [checkTargets, none]

end Boundaries

namespace Body

/-- The offsets that are referred to in code and its tables. -/
def referenced (c : CodeAttribute) (located : List Located) : Std.HashSet Nat :=
  .ofList (located.flatMap Located.targetOffsets ++
    (c.exceptions.flatMap ExceptionEntry.offsets ++
      ((lineEntries c.attributes).map (·.startPc.toNat) ++
        (localEntries c.attributes).flatMap fun v => [v.startOffset, v.stopOffset])))

/-- The labels of code. -/
def labelsOf (c : CodeAttribute) (located : List Located) : LabelTable :=
  .number (referenced c located) (located.map (·.offset) ++ [c.code.length])

/-- The body that is made of code all of whose entries stand at instructions. -/
def ofLocated (c : CodeAttribute) (located : List Located) : Body :=
  let labels := labelsOf c located
  { maxStack := c.maxStack
    maxLocals := c.maxLocals
    code := located.flatMap labels.items ++ labels.mark c.code.length
    handlers := c.exceptions.map fun e => ⟨labels.label e.startPc.toNat,
      labels.label e.endPc.toNat, labels.label e.handlerPc.toNat, e.catchType⟩
    lines := (lineEntries c.attributes).map fun e => (labels.label e.startPc.toNat, e.line)
    locals := (localEntries c.attributes).map fun e =>
      ⟨labels.label e.startOffset, labels.label e.stopOffset, e.name, e.descriptor, e.index⟩
    labelCount := UInt32.ofNat labels.size }

/-- Everything in the code and its tables stands at instructions. -/
structure InPlace (c : CodeAttribute) (located : List Located) : Prop where
  targets : ∀ i ∈ located, ∀ o ∈ i.targetOffsets,
    (Boundaries.ofCode located c.code.length).isStart o = true
  exceptions : ∀ e ∈ c.exceptions,
    (Boundaries.ofCode located c.code.length).checkException e = .ok ()
  lines : ∀ e ∈ lineEntries c.attributes,
    (Boundaries.ofCode located c.code.length).isStart e.startPc.toNat = true
  locals : ∀ e ∈ localEntries c.attributes,
    (Boundaries.ofCode located c.code.length).isBoundary e.startOffset = true ∧
      (Boundaries.ofCode located c.code.length).isBoundary e.stopOffset = true

theorem instructions_ofLocated (c : CodeAttribute) (located : List Located) :
    (ofLocated c located).instructions = located.map fun i =>
      i.instruction.mapLabels fun x => (labelsOf c located).label x.number.toNat :=
  LabelTable.instructions_code _ _ _

theorem ofCode_eq_ofLocated {c : CodeAttribute} {p : Pool} {located : List Located}
    (read : Located.ofBytes c.code = .ok located) (placed : InPlace c located)
    (constants : ∀ i ∈ located, constantInRange p i.instruction = true) :
    ofCode c p = .ok (ofLocated c located) := by
  have lines : ((lineEntries c.attributes).filter fun e =>
      (Boundaries.ofCode located c.code.length).isStart e.startPc.toNat) =
        lineEntries c.attributes :=
    List.filter_eq_self.2 placed.lines
  have locals : ((localEntries c.attributes).filter fun e =>
      (Boundaries.ofCode located c.code.length).isBoundary e.startOffset &&
        (Boundaries.ofCode located c.code.length).isBoundary e.stopOffset) =
      localEntries c.attributes :=
    List.filter_eq_self.2 fun e he => by simp [placed.locals e he]
  have in_range : (ofLocated c located).instructions.find? (!constantInRange p ·) = none := by
    rw [List.find?_eq_none, instructions_ofLocated]
    intro i hi
    obtain ⟨j, hj, rfl⟩ := List.mem_map.1 hi
    have known := constants j hj
    rw [constantInRange] at known
    simp [constantInRange, Instruction.constantIndex?_mapLabels, known]
  unfold ofCode
  rw [read]
  refine except_bind_eq_ok.2 ⟨located, rfl, except_bind_eq_ok.2 ⟨(), ?_, except_bind_eq_ok.2
    ⟨(), except_forM_ok placed.exceptions, ?_⟩⟩⟩
  · exact except_forM_ok fun i hi => Boundaries.checkTargets_ok (placed.targets i hi)
  · simp only [lines, locals]
    split
    · rename_i i found
      cases in_range.symm.trans found
    · rfl

/-- Straight code without tables is decoded without labels. -/
theorem ofCode_of_bare {c : CodeAttribute} {p : Pool} {located : List Located}
    (read : Located.ofBytes c.code = .ok located)
    (targets : ∀ i ∈ located, i.instruction.targets = [])
    (constants : ∀ i ∈ located, constantInRange p i.instruction = true)
    (exceptions : c.exceptions = []) (attributes : c.attributes = []) :
    ofCode c p = .ok { maxStack := c.maxStack, maxLocals := c.maxLocals
                       code := located.map (.op ·.instruction) } := by
  have none : ∀ i ∈ located, i.targetOffsets = [] := fun i mem => by
    rw [Located.targetOffsets, targets i mem, List.map_nil]
  have placed : InPlace c located :=
    { targets := fun i mem o target => by
        rw [none i mem] at target
        cases target
      exceptions := fun e mem => by
        rw [exceptions] at mem
        cases mem
      lines := fun e mem => by
        rw [attributes] at mem
        cases mem
      locals := fun e mem => by
        rw [attributes] at mem
        cases mem }
  have unlabelled : labelsOf c located = ∅ := by
    have unreferred : referenced c located = .ofList [] := by
      rw [referenced, exceptions, attributes, List.flatMap_eq_nil_iff.2 none]
      rfl
    rw [labelsOf, unreferred, LabelTable.number, List.filter_eq_nil_iff.2 fun o _ => by simp]
    exact Std.HashMap.ofList_nil
  have code : located.flatMap (LabelTable.items ∅) = located.map (.op ·.instruction) := by
    rw [← List.flatMap_pure_eq_map]
    refine List.flatMap_congr fun i mem => ?_
    rw [LabelTable.items, i.instruction.mapLabels_of_targets (targets i mem)]
    simp [LabelTable.mark]
  rw [ofCode_eq_ofLocated read placed constants, ofLocated, unlabelled, exceptions, attributes,
    code]
  simp [LabelTable.mark, lineEntries, localEntries]

/-! ## Written and read back -/

section RoundTrip

variable {b : Body} {l : Layout} {c : CodeAttribute} {p : Pool}

/-- A label before an instruction stands where one starts. -/
theorem isStart_of_inside (s : l.Settled b.code) (once : (b.code.filterMap Item.label?).Nodup)
    (length : c.code.length = l.size) {x : Label} {o : Nat} (hx : l.offsetOf x = .ok o)
    (inside : ∀ n, b.position? x = some n → n < b.instructions.length) :
    (Boundaries.ofCode (l.located l.items) c.code.length).isStart o = true := by
  obtain ⟨n, px, at_n⟩ := s.boundary once hx
  have lt := inside n px
  rw [← s.length_starts] at lt
  have before_end := (s.contiguous.boundary_lt_iff at_n).2 lt
  rw [List.getElem?_append_left lt] at at_n
  rw [Boundaries.isStart_iff, Layout.offsets_located, length]
  exact ⟨by omega, List.mem_of_getElem? at_n⟩

theorem isBoundary_of_placed (s : l.Settled b.code)
    (once : (b.code.filterMap Item.label?).Nodup) (length : c.code.length = l.size) {x : Label}
    {o : Nat} (hx : l.offsetOf x = .ok o) :
    (Boundaries.ofCode (l.located l.items) c.code.length).isBoundary o = true := by
  obtain ⟨n, -, at_n⟩ := s.boundary once hx
  rw [Boundaries.isBoundary_iff, Layout.offsets_located, length]
  exact List.mem_of_getElem? at_n

/-- An instruction that is read is one of the body with offsets for its labels. -/
theorem mem_located (s : l.Settled b.code) {i : Located} (hi : i ∈ l.located l.items) :
    ∃ j ∈ b.instructions, i.instruction = j.mapLabels l.mark := by
  have mem := List.mem_map_of_mem (f := fun i => i.instruction) hi
  rw [Layout.instructions_located, s.items] at mem
  obtain ⟨j, hj, same⟩ := List.mem_map.1 mem
  exact ⟨j, hj, same.symm⟩

/-- What is read of a body that is written stands at its instructions. -/
theorem inPlace_of_written (s : l.Settled b.code) (shaped : b.Shaped p) (w : b.Written l c)
    (length : c.code.length = l.size) : InPlace c (l.located l.items) where
  targets i hi o ho := by
    obtain ⟨j, hj, same⟩ := mem_located s hi
    rw [Located.targetOffsets, same, Instruction.targets_mapLabels, List.map_map] at ho
    obtain ⟨x, hx, rfl⟩ := List.mem_map.1 ho
    have target := List.mem_flatMap.2 ⟨j, hj, hx⟩
    obtain ⟨o, at_o⟩ := s.offsetOf_target w.code target
    rw [Function.comp_apply, s.toNat_mark shaped.once at_o]
    exact isStart_of_inside s shaped.once length at_o (shaped.targets x target)
  exceptions e he := by
    obtain ⟨h, hh, entry⟩ := forall₂_mem_right (s.exceptionTable shaped.once w.exceptions) he
    have start := isBoundary_of_placed s shaped.once length entry.start
    have stop := isBoundary_of_placed s shaped.once length entry.stop
    have target := isStart_of_inside s shaped.once length entry.target
      (shaped.entries h (List.mem_of_mem_filter hh))
    simp only [Boundaries.checkException, decide_eq_true entry.covers, start, stop, target,
      Bool.and_self, if_true]
  lines e he := by
    obtain ⟨line, -, entry⟩ := forall₂_mem_right (s.lineTable shaped.once w.lines) he
    obtain ⟨n, px, at_n⟩ := s.boundary shaped.once entry.start
    refine isStart_of_inside s shaped.once length entry.start fun m hm => ?_
    obtain rfl : n = m := Option.some.inj (px.symm.trans hm)
    rw [← s.length_starts]
    exact (s.contiguous.boundary_lt_iff at_n).1 entry.inside
  locals e he := by
    obtain ⟨v, -, entry⟩ := forall₂_mem_right (s.localTable shaped.once w.locals) he
    exact ⟨isBoundary_of_placed s shaped.once length entry.start,
      isBoundary_of_placed s shaped.once length entry.stop⟩

/-- The label that stands for `x` in what is read back. -/
def renamed (l : Layout) (c : CodeAttribute) (x : Label) : Label :=
  (labelsOf c (l.located l.items)).label (l.mark x).number.toNat

theorem renamed_of_offsetOf (s : l.Settled b.code) (once : (b.code.filterMap Item.label?).Nodup)
    {x : Label} {o : Nat} (hx : l.offsetOf x = .ok o) :
    renamed l c x = (labelsOf c (l.located l.items)).label o := by
  rw [renamed, s.toNat_mark once hx]

/-- A label whose offset is referred to stands where it did. -/
theorem position_renamed (s : l.Settled b.code) (once : (b.code.filterMap Item.label?).Nodup)
    (length : c.code.length = l.size) {x : Label} {o : Nat} (hx : l.offsetOf x = .ok o)
    (known : o ∈ referenced c (l.located l.items)) :
    ∃ n, b.position? x = some n ∧
      (ofLocated c (l.located l.items)).position? (renamed l c x) = some n := by
  obtain ⟨n, px, at_n⟩ := s.boundary once hx
  have boundaries : (l.located l.items).map (·.offset) ++ [c.code.length] =
      Layout.starts l.items ++ [l.size] := by
    rw [Layout.offsets_located, length]
  have sorted := s.contiguous.sorted
  have few : (Layout.starts l.items ++ [l.size]).length ≤ 4294967296 := by
    have := Layout.length_le_of_sorted sorted fun o ho => s.contiguous.boundary_le ho
    have bounded := s.bounded
    simp only [Layout.limit] at bounded
    omega
  rw [← boundaries] at sorted few at_n
  have numbers : (labelsOf c (l.located l.items)).Numbers _ _ :=
    LabelTable.numbers_number sorted (Nat.le_trans (List.length_filter_le _ _) few)
  refine ⟨n, px, ?_⟩
  rw [renamed_of_offsetOf s once hx]
  exact numbers.position_code sorted at_n (numbers.get_label known (List.mem_of_getElem? at_n))

/-- Every place that counts has an offset to which something in the code refers. -/
theorem referenced_of_mem_places (s : l.Settled b.code)
    (once : (b.code.filterMap Item.label?).Nodup) (w : b.Written l c) {x : Label}
    (hx : x ∈ b.places) :
    ∃ o, l.offsetOf x = .ok o ∧ o ∈ referenced c (l.located l.items) := by
  simp only [places, List.mem_append] at hx
  simp only [referenced, Std.HashSet.mem_ofList, List.contains_iff_mem, List.mem_append]
  rcases hx with target | handler | line | slot
  · obtain ⟨o, at_o⟩ := s.offsetOf_target w.code target
    obtain ⟨i, hi, target⟩ := List.mem_flatMap.1 target
    have read : i.mapLabels l.mark ∈ (l.located l.items).map (·.instruction) := by
      rw [Layout.instructions_located, s.items]
      exact List.mem_map_of_mem hi
    obtain ⟨i', hi', same⟩ := List.mem_map.1 read
    refine ⟨o, at_o, .inl (List.mem_flatMap.2 ⟨i', hi', ?_⟩)⟩
    rw [Located.targetOffsets, same, Instruction.targets_mapLabels, List.map_map]
    exact List.mem_map.2 ⟨x, target, s.toNat_mark once at_o⟩
  · obtain ⟨h, hh, hx⟩ := List.mem_flatMap.1 handler
    obtain ⟨e, he, entry⟩ := forall₂_mem_left (s.exceptionTable once w.exceptions) hh
    have found : ∀ o ∈ e.offsets, o ∈ c.exceptions.flatMap ExceptionEntry.offsets :=
      fun o ho => List.mem_flatMap.2 ⟨e, he, ho⟩
    simp only [List.mem_cons, List.not_mem_nil, or_false] at hx
    rcases hx with rfl | rfl | rfl
    · exact ⟨_, entry.start, .inr (.inl (found _ (by simp [ExceptionEntry.offsets])))⟩
    · exact ⟨_, entry.stop, .inr (.inl (found _ (by simp [ExceptionEntry.offsets])))⟩
    · exact ⟨_, entry.target, .inr (.inl (found _ (by simp [ExceptionEntry.offsets])))⟩
  · obtain ⟨line, hl, rfl⟩ := List.mem_map.1 line
    obtain ⟨e, he, entry⟩ := forall₂_mem_left (s.lineTable once w.lines) hl
    exact ⟨_, entry.start, .inr (.inr (.inl (List.mem_map.2 ⟨e, he, rfl⟩)))⟩
  · obtain ⟨v, hv, hx⟩ := List.mem_flatMap.1 slot
    obtain ⟨e, he, entry⟩ := forall₂_mem_left (s.localTable once w.locals) hv
    simp only [List.mem_cons, List.not_mem_nil, or_false] at hx
    rcases hx with rfl | rfl
    · exact ⟨_, entry.start, .inr (.inr (.inr (List.mem_flatMap.2 ⟨e, he, by simp⟩)))⟩
    · exact ⟨_, entry.stop, .inr (.inr (.inr (List.mem_flatMap.2 ⟨e, he, by simp⟩)))⟩

theorem renamed_ofLocated (s : l.Settled b.code) (shaped : b.Shaped p) (w : b.Written l c)
    (length : c.code.length = l.size) :
    b.Renamed (renamed l c) (ofLocated c (l.located l.items)) where
  maxStack := w.maxStack
  maxLocals := w.maxLocals
  instructions := by
    rw [instructions_ofLocated]
    have same := congrArg (List.map fun i =>
      i.mapLabels fun x => (labelsOf c (l.located l.items)).label x.number.toNat)
      (Layout.instructions_located l l.items)
    rw [List.map_map, List.map_map, s.items] at same
    exact same.trans (List.map_congr_left fun i _ => i.mapLabels_mapLabels _ _)
  handlers := map_eq_of_forall₂ (s.exceptionTable shaped.once w.exceptions) fun h e entry => by
    rw [Handler.mapLabels, renamed_of_offsetOf s shaped.once entry.start,
      renamed_of_offsetOf s shaped.once entry.stop, renamed_of_offsetOf s shaped.once entry.target,
      entry.catchType]
  lines := map_eq_of_forall₂ (s.lineTable shaped.once w.lines) fun line e entry => by
    rw [renamed_of_offsetOf s shaped.once entry.start, entry.line]
  locals := map_eq_of_forall₂ (s.localTable shaped.once w.locals) fun v e entry => by
    rw [renamed_of_offsetOf s shaped.once entry.start, renamed_of_offsetOf s shaped.once entry.stop,
      entry.name, entry.descriptor, entry.index]
  places x hx := by
    obtain ⟨o, at_o, known⟩ := referenced_of_mem_places s shaped.once w hx
    exact position_renamed s shaped.once length at_o known

end RoundTrip

/-- A body that is written is read back, with every label where it was. -/
theorem ofCode_toCode {b : Body} {p q : Pool} {c : CodeAttribute} (shaped : b.Shaped p)
    (written : b.toCode.run p = .ok (c, q)) :
    ∃ f b', ofCode c q = .ok b' ∧ b.Renamed f b' := by
  obtain ⟨grown, l, w⟩ := toCode_eq_ok (edit_run_eq_ok.1 written)
  have s := Layout.settled_of_ofCode w.layout
  obtain ⟨length, read⟩ := s.ofBytes_bytes shaped.once shaped.instructions w.code
  refine ⟨_, _, ofCode_eq_ofLocated read (inPlace_of_written s shaped w length) ?_,
    renamed_ofLocated s shaped w length⟩
  intro i hi
  obtain ⟨j, hj, same⟩ := mem_located s hi
  have in_range := shaped.constants j hj
  rw [same]
  exact constantInRange_of_extends grown.keeps (by rwa [constantInRange, j.constantIndex?_mapLabels])

/-- A loop without end. -/
def spin : Body where
  code := [.label ⟨0⟩, .op ⟨.goto, .branch ⟨0⟩⟩]
  labelCount := 1

theorem shaped_spin : spin.Shaped .empty where
  instructions := by decide +kernel
  constants := by decide
  once := by decide
  targets := by decide
  entries := by decide

theorem toCode_spin : spin.toCode.run .empty = .ok (⟨0, 0, [0xA7, 0, 0], [], []⟩, .empty) := by
  obtain ⟨l, laid_out⟩ : ∃ l, l = Layout.ofSized (spin.code.map ({ item := · })) := ⟨_, rfl⟩
  have items : l.items = [⟨⟨.label ⟨0⟩, false⟩, 0⟩, ⟨⟨.op ⟨.goto, .branch ⟨0⟩⟩, false⟩, 0⟩] := by
    rw [laid_out]; rfl
  have labels : l.labels = (∅ : Std.HashMap Label Nat).insert ⟨0⟩ 0 := by rw [laid_out]; rfl
  have size : l.size = 3 := by rw [laid_out]; rfl
  have at_start : l.distance 0 ⟨0⟩ = .ok 0 := by
    rw [Layout.distance, Layout.offsetOf, labels, Std.HashMap.getElem?_insert_self]
    rfl
  have layout : Layout.ofCode spin.code = .ok l := by
    have round : l.widen = .ok (spin.code.map ({ item := · }), false) := by
      simp only [Layout.widen, items, List.mapM_cons, List.mapM_nil, Layout.widens,
        Placed.narrowBranch?, Bool.false_eq_true, if_false, at_start]
      rfl
    simp only [Layout.ofCode, Layout.settle, ← laid_out, size, round]
    rfl
  have code : l.bytes = .ok [0xA7, 0, 0] := by
    simp only [Layout.bytes, items, List.mapM_cons, List.mapM_nil, Layout.itemBytes,
      Layout.instructionBytes, at_start]
    rfl
  rw [edit_run_eq_ok]
  refine (step_bind_ok (edit_lift_eq_ok.2 ⟨layout, rfl⟩)).trans ?_
  exact (step_bind_ok (edit_lift_eq_ok.2 ⟨code, rfl⟩)).trans rfl

theorem ofCode_toCode_spin : spin.Shaped .empty ∧ ∃ c q, spin.toCode.run .empty = .ok (c, q) ∧
    ∃ f b', ofCode c q = .ok b' ∧ spin.Renamed f b' :=
  ⟨shaped_spin, _, _, toCode_spin, ofCode_toCode shaped_spin toCode_spin⟩

end Body

end Weft
