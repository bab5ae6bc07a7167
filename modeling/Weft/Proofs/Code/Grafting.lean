import Mathlib.Data.List.Nodup
import Weft.Proofs.Code.Splicing

/-!
# Bodies with inserted bodies

A body whose labels are below its count, and placed at most once, keeps what its labels stand for when
a fragment of the same kind is inserted, and so does the fragment: the labels of the fragment come
behind those of the body. Only a label that stands right in front of the place of insertion leads to
the fragment from then on. Labels have 32 bits. If there are more of them together, a label of the
fragment becomes one of the body.
-/

namespace Weft

/-! ## Places in lists of items -/

section Positions

variable {x : Label} {items before after : List Item} {n : Nat}

/-- A label is found at its first place. -/
theorem position?_append (x : Label) (before after : List Item) :
    position? x (before ++ after) = (position? x before).or
      ((position? x after).map ((before.filterMap Item.instruction?).length + ·)) := by
  induction before with
  | nil =>
    rw [List.nil_append]
    cases position? x after <;> simp [position?]
  | cons item before ih =>
    cases item with
    | label l =>
      rw [List.cons_append, position?, position?]
      split
      · rfl
      · exact ih
    | op i =>
      have counted : ((Item.op i :: before).filterMap Item.instruction?).length =
          (before.filterMap Item.instruction?).length + 1 := rfl
      rw [List.cons_append, position?, position?, ih, Option.map_or, Option.map_map, counted]
      congr 2
      funext m
      exact (Nat.add_right_comm _ 1 m).symm

theorem position?_eq_none_iff :
    position? x items = none ↔ x ∉ items.filterMap Item.label? := by
  induction items with
  | nil => simp [position?]
  | cons item items ih =>
    cases item with
    | label l =>
      have listed : (Item.label l :: items).filterMap Item.label? =
          l :: items.filterMap Item.label? := rfl
      rw [position?, listed, List.mem_cons]
      split
      · rename_i here
        simp [here]
      · rename_i other
        rw [ih, not_or]
        exact ⟨fun rest => ⟨fun same => other same.symm, rest⟩, And.right⟩
    | op i =>
      rw [position?, Option.map_eq_none_iff, ih, List.filterMap_cons_none rfl]

theorem mem_label_of_position? (h : position? x items = some n) :
    x ∈ items.filterMap Item.label? := by
  by_contra absent
  rw [position?_eq_none_iff.2 absent] at h
  cases h

theorem position?_le (h : position? x items = some n) :
    n ≤ (items.filterMap Item.instruction?).length := by
  induction items generalizing n with
  | nil => cases h
  | cons item items ih =>
    cases item with
    | label l =>
      rw [position?] at h
      split at h
      · cases h
        exact Nat.zero_le _
      · exact ih h
    | op i =>
      obtain ⟨m, here, rfl⟩ := Option.map_eq_some_iff.1 h
      exact Nat.succ_le_succ (ih here)

/-- Labels that get other names one by one keep their places. -/
theorem position?_mapLabels {f : Label → Label} (apart : Function.Injective f) (x : Label)
    (items : List Item) : position? (f x) (items.map (Item.mapLabels f)) = position? x items := by
  induction items with
  | nil => rfl
  | cons item items ih =>
    cases item with
    | label l =>
      rw [List.map_cons, Item.mapLabels, position?, position?, ih]
      simp only [apart.eq_iff]
    | op i =>
      rw [List.map_cons, Item.mapLabels, position?, position?, ih]

theorem labels_mapLabels (f : Label → Label) (items : List Item) :
    (items.map (Item.mapLabels f)).filterMap Item.label? =
      (items.filterMap Item.label?).map f := by
  induction items with
  | nil => rfl
  | cons item items ih =>
    cases item with
    | label l => exact congrArg (f l :: ·) ih
    | op i => exact ih

theorem instructions_mapLabels (f : Label → Label) (items : List Item) :
    (items.map (Item.mapLabels f)).filterMap Item.instruction? =
      (items.filterMap Item.instruction?).map (·.mapLabels f) := by
  induction items with
  | nil => rfl
  | cons item items ih =>
    cases item with
    | label l => exact ih
    | op i => exact congrArg (i.mapLabels f :: ·) ih

end Positions

/-! ## Labels of two bodies -/

namespace Label

variable {x y : Label} {m n : UInt32}

theorem shift_injective (m : UInt32) : Function.Injective (shift m) := by
  rintro ⟨a⟩ ⟨b⟩ same
  have same : a + m = b + m := congrArg Label.number same
  rw [UInt32.add_left_inj] at same
  rw [same]

/-- As long as there are enough numbers, a label that is moved stands behind those before it. -/
theorem toNat_shift (below : x.number < n) (room : m.toNat + n.toNat ≤ 4294967296) :
    (x.shift m).number.toNat = m.toNat + x.number.toNat := by
  have below := UInt32.lt_iff_toNat_lt.1 below
  show (x.number + m).toNat = _
  rw [UInt32.toNat_add, Nat.mod_eq_of_lt (by omega), Nat.add_comm]

/-- A label that is moved is one of those in front just if there are too few numbers. -/
theorem exists_shift_eq_iff (m n : UInt32) :
    (∃ x y : Label, x.number < n ∧ y.number < m ∧ x.shift m = y) ↔
      4294967296 < m.toNat + n.toNat := by
  constructor
  case mp =>
    rintro ⟨x, y, below, first, rfl⟩
    by_contra room
    have behind := toNat_shift below (Nat.le_of_not_lt room)
    have first := UInt32.lt_iff_toNat_lt.1 first
    omega
  case mpr =>
    intro beyond
    have bound := n.toNat_lt
    have bound' := m.toNat_lt
    -- The label that is moved to the very first number.
    refine ⟨⟨UInt32.ofNat (4294967296 - m.toNat)⟩, ⟨0⟩, ?_, ?_, ?_⟩
    · rw [UInt32.lt_iff_toNat_lt, UInt32.toNat_ofNat', Nat.mod_eq_of_lt (by omega)]
      omega
    · rw [UInt32.lt_iff_toNat_lt]
      show 0 < m.toNat
      omega
    · refine congrArg Label.mk (UInt32.toNat_inj.1 ?_)
      rw [UInt32.toNat_add, UInt32.toNat_ofNat', Nat.mod_eq_of_lt (a := 4294967296 - _) (by omega),
        Nat.sub_add_cancel (by omega)]
      rfl

end Label

/-! ## Bodies -/

/-- The labels of the handler. -/
def Handler.labels (h : Handler) : List Label := [h.start, h.stop, h.target]

namespace Body

variable {b f : Body} {position n : Nat} {x y : Label}

/-- The labels that are placed in front of a position. -/
def labelsBefore (b : Body) (position : Nat) : List Label :=
  (b.code.take position).filterMap Item.label?

/-- All labels that the body places or refers to. -/
def mentions (b : Body) : List Label :=
  b.code.filterMap Item.label? ++ (b.instructions.flatMap Instruction.targets ++
    (b.handlers.flatMap Handler.labels ++
      (b.lines.map (·.1) ++ b.locals.flatMap fun v => [v.start, v.stop])))

/-- The labels of the body are among those that it handed out, and placed at most once. -/
structure Numbered (b : Body) : Prop where
  below : ∀ x ∈ b.mentions, x.number < b.labelCount
  once : (b.code.filterMap Item.label?).Nodup

/-- The index at which the instruction at an index stands once a fragment is inserted. -/
def movedTo (b : Body) (position : Nat) (f : Body) (n : Nat) : Nat :=
  if n < (b.instructionsBefore position).length then n else n + f.instructions.length

/-- In `b'` the fragment stands at the position, and all labels stand for what they stood for. -/
structure Grafted (b : Body) (position : Nat) (f b' : Body) : Prop where
  instructions : b'.instructions = b.instructionsBefore position ++
    (f.instructions.map (·.mapLabels (Label.shift b.labelCount)) ++ b.instructionsFrom position)
  old : ∀ n, b'.instructions[b.movedTo position f n]? = b.instructions[n]?
  /-- A label of the body stands at the instruction at which it stood, unless it is in front of the
  position with no instruction between. -/
  own : ∀ x ∈ b.mentions, ∀ n, b.position? x = some n →
    ¬(x ∈ b.labelsBefore position ∧ n = (b.instructionsBefore position).length) →
      b'.position? x = some (b.movedTo position f n)
  /-- A label right in front of the position leads to the first instruction of the fragment. -/
  adjacent : ∀ x ∈ b.labelsBefore position,
    b.position? x = some (b.instructionsBefore position).length →
      b'.position? x = some (b.instructionsBefore position).length
  unplaced : ∀ x ∈ b.mentions, b.position? x = none → b'.position? x = none
  /-- The labels of the fragment stand at its instructions. -/
  fragment : ∀ x ∈ f.mentions, b'.position? (x.shift b.labelCount) =
    (f.position? x).map ((b.instructionsBefore position).length + ·)
  apart : ∀ x ∈ f.mentions, ∀ y ∈ b.mentions, x.shift b.labelCount ≠ y
  handlers : b'.handlers =
    f.handlers.map (·.mapLabels (Label.shift b.labelCount)) ++ b.handlers
  lines : b'.lines = b.lines
  locals : b'.locals = b.locals
  labelCount : b'.labelCount.toNat = b.labelCount.toNat + f.labelCount.toNat
  maxStack : b'.maxStack = max b.maxStack f.maxStack
  maxLocals : b'.maxLocals = max b.maxLocals f.maxLocals
  numbered : b'.Numbered

/-! ### Instructions -/

theorem splice_instructions (b : Body) (position : Nat) (f : Body) :
    (b.splice position f).instructions = b.instructionsBefore position ++
      (f.instructions.map (·.mapLabels (Label.shift b.labelCount)) ++
        b.instructionsFrom position) := by
  rw [Body.instructions, splice, List.filterMap_append, List.filterMap_append,
    instructions_mapLabels]
  rfl

theorem getElem?_movedTo (b : Body) (position : Nat) (f : Body) (n : Nat) :
    (b.splice position f).instructions[b.movedTo position f n]? = b.instructions[n]? := by
  rw [splice_instructions, b.instructions_append position, movedTo]
  split
  · rename_i early
    rw [List.getElem?_append_left early, List.getElem?_append_left early]
  · rename_i late
    have late := Nat.le_of_not_lt late
    rw [List.getElem?_append_right (by omega), List.getElem?_append_right late,
      List.getElem?_append_right (by rw [List.length_map]; omega), List.length_map]
    congr 1
    omega

/-! ### Labels -/

theorem mem_mentions_of_label (placed : x ∈ b.code.filterMap Item.label?) : x ∈ b.mentions :=
  List.mem_append_left _ placed

theorem position?_eq (b : Body) (position : Nat) (x : Label) :
    b.position? x = (Weft.position? x (b.code.take position)).or
      ((Weft.position? x (b.code.drop position)).map
        ((b.instructionsBefore position).length + ·)) := by
  rw [Body.position?]
  conv => lhs; rw [← List.take_append_drop position b.code]
  exact position?_append x _ _

theorem position?_splice (b : Body) (position : Nat) (f : Body) (x : Label) :
    (b.splice position f).position? x = (Weft.position? x (b.code.take position)).or
      (((Weft.position? x (f.code.map (Item.mapLabels (Label.shift b.labelCount)))).or
        ((Weft.position? x (b.code.drop position)).map (f.instructions.length + ·))).map
          ((b.instructionsBefore position).length + ·)) := by
  have counted : ((f.code.map (Item.mapLabels (Label.shift b.labelCount))).filterMap
      Item.instruction?).length = f.instructions.length := by
    rw [instructions_mapLabels, List.length_map]
    rfl
  rw [Body.position?, splice, position?_append, position?_append, counted]
  rfl

/-- The labels of a fragment come behind those of the body. -/
theorem Numbered.apart (hb : b.Numbered) (hf : f.Numbered)
    (room : b.labelCount.toNat + f.labelCount.toNat ≤ 4294967296) (inside : x ∈ f.mentions)
    (own : y ∈ b.mentions) : x.shift b.labelCount ≠ y := fun same =>
  Nat.not_lt_of_le room ((Label.exists_shift_eq_iff _ _).1
    ⟨x, y, hf.below x inside, hb.below y own, same⟩)

section Grafting

variable (hb : b.Numbered) (hf : f.Numbered)
  (room : b.labelCount.toNat + f.labelCount.toNat ≤ 4294967296)

include hb hf room

/-- No label of the body is placed by the fragment. -/
theorem position?_own (own : x ∈ b.mentions) :
    Weft.position? x (f.code.map (Item.mapLabels (Label.shift b.labelCount))) = none := by
  rw [position?_eq_none_iff, labels_mapLabels]
  intro placed
  obtain ⟨z, there, same⟩ := List.mem_map.1 placed
  exact hb.apart hf room (mem_mentions_of_label there) own same

/-- Behind the place of insertion there are more instructions in front of a label. -/
theorem position?_splice_own (position : Nat) (own : x ∈ b.mentions) :
    (b.splice position f).position? x = (Weft.position? x (b.code.take position)).or
      (((Weft.position? x (b.code.drop position)).map
        ((b.instructionsBefore position).length + ·)).map (· + f.instructions.length)) := by
  rw [position?_splice, position?_own hb hf room own, Option.none_or, Option.map_map,
    Option.map_map]
  congr 2
  funext m
  show _ + (_ + m) = _ + m + _
  omega

theorem position?_splice_fragment (position : Nat) (inside : x ∈ f.mentions) :
    (b.splice position f).position? (x.shift b.labelCount) =
      (f.position? x).map ((b.instructionsBefore position).length + ·) := by
  have foreign {items : List Item} (part : items.Sublist b.code) :
      Weft.position? (x.shift b.labelCount) items = none := by
    rw [position?_eq_none_iff]
    intro placed
    exact hb.apart hf room inside (mem_mentions_of_label ((part.filterMap _).subset placed)) rfl
  rw [position?_splice, foreign (List.take_sublist _ _), foreign (List.drop_sublist _ _),
    Option.none_or, Option.map_none, Option.or_none,
    position?_mapLabels (Label.shift_injective _)]
  rfl

/-- Labels are placed at most once still. -/
theorem once_splice (position : Nat) :
    ((b.splice position f).code.filterMap Item.label?).Nodup := by
  have whole : b.labelsBefore position ++ (b.code.drop position).filterMap Item.label? =
      b.code.filterMap Item.label? := by
    rw [labelsBefore, ← List.filterMap_append, List.take_append_drop]
  rw [splice, List.filterMap_append, List.filterMap_append, labels_mapLabels,
    (List.perm_append_comm_assoc _ _ _).nodup_iff]
  refine List.nodup_append'.2 ⟨hf.once.map (Label.shift_injective _), ?_, ?_⟩
  · exact whole ▸ hb.once
  · intro x inside own
    obtain ⟨z, there, same⟩ := List.mem_map.1 inside
    exact hb.apart hf room (mem_mentions_of_label there) (mem_mentions_of_label (whole ▸ own)) same

end Grafting

theorem mem_labels_splice (placed : x ∈ (b.splice position f).code.filterMap Item.label?) :
    x ∈ b.code.filterMap Item.label? ∨
      ∃ z ∈ f.code.filterMap Item.label?, z.shift b.labelCount = x := by
  rw [splice, List.filterMap_append, List.filterMap_append, labels_mapLabels, List.mem_append,
    List.mem_append, List.mem_map] at placed
  rcases placed with front | inside | behind
  · exact .inl (((List.take_sublist position b.code).filterMap _).subset front)
  · exact .inr inside
  · exact .inl (((List.drop_sublist position b.code).filterMap _).subset behind)

theorem mem_targets_splice
    (leads : x ∈ (b.splice position f).instructions.flatMap Instruction.targets) :
    x ∈ b.instructions.flatMap Instruction.targets ∨
      ∃ z ∈ f.instructions.flatMap Instruction.targets, z.shift b.labelCount = x := by
  obtain ⟨i, listed, leads⟩ := List.mem_flatMap.1 leads
  rw [splice_instructions, List.mem_append, List.mem_append] at listed
  rw [b.instructions_append position]
  rcases listed with front | inside | behind
  · exact .inl (List.mem_flatMap.2 ⟨i, List.mem_append_left _ front, leads⟩)
  · obtain ⟨j, there, rfl⟩ := List.mem_map.1 inside
    rw [Instruction.targets_mapLabels] at leads
    obtain ⟨z, led, rfl⟩ := List.mem_map.1 leads
    exact .inr ⟨z, List.mem_flatMap.2 ⟨j, there, led⟩, rfl⟩
  · exact .inl (List.mem_flatMap.2 ⟨i, List.mem_append_right _ behind, leads⟩)

theorem mem_handlers_splice
    (handles : x ∈ (b.splice position f).handlers.flatMap Handler.labels) :
    x ∈ b.handlers.flatMap Handler.labels ∨
      ∃ z ∈ f.handlers.flatMap Handler.labels, z.shift b.labelCount = x := by
  obtain ⟨h, listed, handles⟩ := List.mem_flatMap.1 handles
  rcases List.mem_append.1 listed with inside | there
  · obtain ⟨e, there, rfl⟩ := List.mem_map.1 inside
    have moved : x ∈ e.labels.map (Label.shift b.labelCount) := handles
    obtain ⟨z, led, rfl⟩ := List.mem_map.1 moved
    exact .inr ⟨z, List.mem_flatMap.2 ⟨e, there, led⟩, rfl⟩
  · exact .inl (List.mem_flatMap.2 ⟨h, there, handles⟩)

/-- What is mentioned is mentioned by the body or by the fragment. -/
theorem mem_mentions_splice (mentioned : x ∈ (b.splice position f).mentions) :
    x ∈ b.mentions ∨ ∃ z ∈ f.mentions, z.shift b.labelCount = x := by
  have parts {b : Body} {x : Label} : x ∈ b.mentions ↔ x ∈ b.code.filterMap Item.label? ∨
      x ∈ b.instructions.flatMap Instruction.targets ∨ x ∈ b.handlers.flatMap Handler.labels ∨
        x ∈ b.lines.map (·.1) ++ b.locals.flatMap fun v => [v.start, v.stop] := by
    simp only [mentions, List.mem_append]
  simp only [parts] at mentioned ⊢
  rcases mentioned with placed | leads | handles | described
  · exact (mem_labels_splice placed).imp .inl fun ⟨z, there, same⟩ => ⟨z, .inl there, same⟩
  · exact (mem_targets_splice leads).imp (.inr ∘ .inl)
      fun ⟨z, there, same⟩ => ⟨z, .inr (.inl there), same⟩
  · exact (mem_handlers_splice handles).imp (.inr ∘ .inr ∘ .inl)
      fun ⟨z, there, same⟩ => ⟨z, .inr (.inr (.inl there)), same⟩
  · exact .inl (.inr (.inr (.inr described)))

/-- The labels are counted together as long as there are numbers for them. -/
theorem labelCount_splice (b : Body) (position : Nat) (f : Body) :
    (b.splice position f).labelCount.toNat = b.labelCount.toNat + f.labelCount.toNat ↔
      b.labelCount.toNat + f.labelCount.toNat < 4294967296 := by
  show (b.labelCount + f.labelCount).toNat = _ ↔ _
  have := (b.labelCount + f.labelCount).toNat_lt
  rw [UInt32.toNat_add]
  omega

theorem Numbered.splice (hb : b.Numbered) (hf : f.Numbered) (position : Nat)
    (room : b.labelCount.toNat + f.labelCount.toNat < 4294967296) :
    (b.splice position f).Numbered where
  once := once_splice hb hf (Nat.le_of_lt room) position
  below x mentioned := by
    rw [UInt32.lt_iff_toNat_lt, (labelCount_splice b position f).2 room]
    rcases mem_mentions_splice mentioned with own | ⟨z, inside, rfl⟩
    · have := UInt32.lt_iff_toNat_lt.1 (hb.below x own)
      omega
    · have := UInt32.lt_iff_toNat_lt.1 (hf.below z inside)
      rw [Label.toNat_shift (hf.below z inside) (Nat.le_of_lt room)]
      omega

/-- Inserting a fragment keeps what all labels stand for, as long as there are numbers for them. -/
theorem grafted_splice (hb : b.Numbered) (hf : f.Numbered) (position : Nat)
    (room : b.labelCount.toNat + f.labelCount.toNat < 4294967296) :
    b.Grafted position f (b.splice position f) := by
  have room' := Nat.le_of_lt room
  constructor
  case instructions => exact splice_instructions b position f
  case old => exact getElem?_movedTo b position f
  case own =>
    intro x own n here apart
    rw [position?_splice_own hb hf room' position own, movedTo]
    rw [b.position?_eq position] at here
    cases front : Weft.position? x (b.code.take position) with
    | some m =>
      rw [front, Option.some_or] at here
      obtain rfl : m = n := Option.some.inj here
      have placed : x ∈ b.labelsBefore position := mem_label_of_position? front
      have : m ≤ (b.instructionsBefore position).length := position?_le front
      rw [Option.some_or, if_pos (Nat.lt_of_le_of_ne this fun same => apart ⟨placed, same⟩)]
    | none =>
      rw [front, Option.none_or] at here
      obtain ⟨m, behind, rfl⟩ := Option.map_eq_some_iff.1 here
      rw [behind, Option.none_or, Option.map_some, Option.map_some,
        if_neg (Nat.not_lt_of_le (Nat.le_add_right _ m))]
  case adjacent =>
    intro x placed here
    have own := mem_mentions_of_label (b := b)
      (((List.take_sublist position b.code).filterMap Item.label?).subset placed)
    rw [position?_splice_own hb hf room' position own]
    rw [b.position?_eq position] at here
    cases front : Weft.position? x (b.code.take position) with
    | some n =>
      rw [front, Option.some_or] at here
      rw [Option.some_or, here]
    | none => exact absurd placed (position?_eq_none_iff.1 front)
  case unplaced =>
    intro x own nowhere
    rw [b.position?_eq position, Option.or_eq_none_iff, Option.map_eq_none_iff] at nowhere
    rw [position?_splice_own hb hf room' position own, nowhere.1, nowhere.2]
    rfl
  case fragment => exact fun x inside => position?_splice_fragment hb hf room' position inside
  case apart => exact fun x inside y own => hb.apart hf room' inside own
  case handlers => rfl
  case lines => rfl
  case locals => rfl
  case labelCount => exact (labelCount_splice b position f).2 room
  case maxStack => rfl
  case maxLocals => rfl
  case numbered => exact hb.splice hf position room

/-- A jump of the fragment that leads to a label of the body, as there are no more numbers. -/
example : (splice { labelCount := 4294967295, code := [.label ⟨0⟩, .op ⟨.voidReturn, .none⟩] } 0
    { labelCount := 2, code := [.label ⟨1⟩, .op ⟨.goto, .branch ⟨1⟩⟩] }).code =
      [.label ⟨0⟩, .op ⟨.goto, .branch ⟨0⟩⟩, .label ⟨0⟩, .op ⟨.voidReturn, .none⟩] := by decide

end Body

end Weft
