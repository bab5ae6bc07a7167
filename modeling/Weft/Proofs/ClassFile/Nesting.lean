import Weft.Proofs.ClassFile.Attributes

/-!
# Nested annotations

The depth of an annotation is the greatest at which a value stands in it. What is written of an
annotation is read back with every limit that its depth keeps to, and refused by each smaller one,
before anything behind the annotation is looked at.
-/

namespace Weft

/-! ## Refused bytes -/

namespace Reader

variable {α β : Type} {pos : Nat}

/-- From `pos` the reader fails with that error within the bytes, whatever follows them. -/
def Refuses (r : Reader α) (pos : Nat) (bs : Bytes) (e : Error) : Prop :=
  ∀ rest, ∃ s, r ⟨pos, bs ++ rest⟩ = .error e s

variable {e : Error}

theorem Takes.refuses {r : Reader α} {f : α → Reader β} {bs cs : Bytes} {a : α}
    (first : r.Takes pos bs a) (second : (f a).Refuses (pos + bs.length) cs e) :
    (r >>= f).Refuses pos (bs ++ cs) e := by
  intro rest
  obtain ⟨s, failed⟩ := second rest
  refine ⟨s, ?_⟩
  rw [List.append_assoc, step_bind_ok (first (cs ++ rest))]
  exact failed

namespace Refuses

theorem throw (bs : Bytes) : Refuses (throw e : Reader α) pos bs e := fun _ => ⟨_, rfl⟩

/-- What a reader refuses is refused with anything behind it. -/
theorem head {r : Reader α} {f : α → Reader β} {bs cs : Bytes} (h : r.Refuses pos bs e) :
    (r >>= f).Refuses pos (bs ++ cs) e := by
  intro rest
  obtain ⟨s, failed⟩ := h (cs ++ rest)
  refine ⟨s, ?_⟩
  rw [List.append_assoc]
  exact step_bind_error failed

theorem map {r : Reader α} {f : α → β} {bs : Bytes} (h : r.Refuses pos bs e) :
    Refuses (do return f (← r)) pos bs e := by
  have whole : Refuses (do return f (← r)) pos (bs ++ []) e := h.head
  rwa [List.append_nil] at whole

/-- Items are read up to the first that is refused. -/
theorem times_go {r : Reader α} {f : α → Bytes} {as : List α}
    (each : ∀ a ∈ as, (∀ pos, r.Takes pos (f a) a) ∨ ∀ pos, r.Refuses pos (f a) e)
    (some : ∃ a ∈ as, ∀ pos, r.Refuses pos (f a) e) (acc : List α) :
    (Reader.times.go r as.length acc).Refuses pos (as.map f).flatten e := by
  induction as generalizing pos acc with
  | nil => simp at some
  | cons a as ih =>
    rw [List.map_cons, List.flatten_cons]
    rcases each a List.mem_cons_self with taken | refused
    · refine (taken pos).refuses (ih (fun b mem => each b (List.mem_cons_of_mem a mem)) ?_ _)
      obtain ⟨b, mem, refused⟩ := some
      rcases List.mem_cons.1 mem with rfl | mem
      · -- an item that is refused is not taken
        obtain ⟨s, failed⟩ := refused pos []
        cases failed.symm.trans (taken pos [])
      · exact ⟨b, mem, refused⟩
    · exact (refused pos).head

/-- A table is refused where one of its items is, and the items before it are taken. -/
theorem table {r : Reader α} {f : α → Bytes} {as : List α} (few : as.length < 65536)
    (each : ∀ a ∈ as, (∀ pos, r.Takes pos (f a) a) ∨ ∀ pos, r.Refuses pos (f a) e)
    (some : ∃ a ∈ as, ∀ pos, r.Refuses pos (f a) e) :
    (Reader.table r).Refuses pos
      (Bytes.ofU16 (UInt16.ofNat as.length) ++ (as.map f).flatten) e := by
  refine (Takes.u16 _).refuses ?_
  rw [UInt16.toNat_ofNat_of_lt' few]
  exact times_go each some []

end Refuses

end Reader

/-! ## Depth -/

namespace ElementValue

mutual

/-- The levels that a value takes: its own, and those of the values that it holds. -/
def height : ElementValue → Nat
  | const _ _ | enum _ _ | classInfo _ => 1
  | nested _ elements => heightNamed elements + 1
  | array items => heightList items + 1

/-- The levels that named values take. -/
def heightNamed : List (UInt16 × ElementValue) → Nat
  | [] => 0
  | (_, value) :: rest => max value.height (heightNamed rest)

/-- The levels that values take. -/
def heightList : List ElementValue → Nat
  | [] => 0
  | value :: rest => max value.height (heightList rest)

end

theorem heightNamed_le_iff {elements : List (UInt16 × ElementValue)} {levels : Nat} :
    heightNamed elements ≤ levels ↔ ∀ e ∈ elements, e.2.height ≤ levels := by
  induction elements with
  | nil => simp [heightNamed]
  | cons e elements ih => rw [heightNamed, Nat.max_le, ih, List.forall_mem_cons]

theorem heightList_le_iff {items : List ElementValue} {levels : Nat} :
    heightList items ≤ levels ↔ ∀ v ∈ items, v.height ≤ levels := by
  induction items with
  | nil => simp [heightList]
  | cons v items ih => rw [heightList, Nat.max_le, ih, List.forall_mem_cons]

theorem height_pos (v : ElementValue) : 0 < v.height := by
  cases v <;> simp [height]

/-- The constants of the value have known tags, and the lengths of its tables fit in sixteen
bits. -/
inductive Stored : ElementValue → Prop
  | const {tag index} : isConstTag tag = true → Stored (.const tag index)
  | enum {typeName constName} : Stored (.enum typeName constName)
  | classInfo {index} : Stored (.classInfo index)
  | nested {type elements} : elements.length < 65536 → (∀ e ∈ elements, Stored e.2) →
      Stored (.nested type elements)
  | array {items} : items.length < 65536 → (∀ v ∈ items, Stored v) → Stored (.array items)

theorem exists_level {v : ElementValue} {levels : Nat} (low : v.height ≤ levels) :
    ∃ n, levels = n + 1 :=
  Nat.exists_eq_succ_of_ne_zero (Nat.ne_of_gt (Nat.lt_of_lt_of_le v.height_pos low))

/-- Reading accepts a stored value with as many levels left as it takes, and not with fewer. -/
theorem Stored.within_iff {v : ElementValue} (h : v.Stored) {levels : Nat} :
    Within levels v ↔ v.height ≤ levels := by
  constructor
  · intro within
    induction within with
    | const | enum | classInfo => simp [height]
    | @nested levels type elements _ _ ih =>
      cases h with
      | nested _ each =>
        have below : heightNamed elements ≤ levels :=
          heightNamed_le_iff.2 fun e mem => ih e mem (each e mem)
        rw [height]
        omega
    | @array levels items _ _ ih =>
      cases h with
      | array _ each =>
        have below : heightList items ≤ levels :=
          heightList_le_iff.2 fun v mem => ih v mem (each v mem)
        rw [height]
        omega
  · intro low
    induction h generalizing levels with
    | const known =>
      obtain ⟨levels, rfl⟩ := exists_level low
      exact .const known
    | enum =>
      obtain ⟨levels, rfl⟩ := exists_level low
      exact .enum
    | classInfo =>
      obtain ⟨levels, rfl⟩ := exists_level low
      exact .classInfo
    | nested few _ ih =>
      obtain ⟨levels, rfl⟩ := exists_level low
      rw [height, Nat.add_le_add_iff_right, heightNamed_le_iff] at low
      exact .nested few fun e mem => ih e mem (low e mem)
    | array few _ ih =>
      obtain ⟨levels, rfl⟩ := exists_level low
      rw [height, Nat.add_le_add_iff_right, heightList_le_iff] at low
      exact .array few fun v mem => ih v mem (low v mem)

section Refusing

variable {limit levels : Nat}

/-- Named values are read up to the first that takes more levels than are left. -/
theorem refuses_named {elements : List (UInt16 × ElementValue)} (few : elements.length < 65536)
    (stored : ∀ e ∈ elements, e.2.Stored) (deep : levels < heightNamed elements)
    (refused : ∀ e ∈ elements, levels < e.2.height → ∀ pos,
      (read limit levels).Refuses pos e.2.write (.recursionLimit limit)) (pos : Nat) :
    (Reader.table (do return (← Reader.u16, ← read limit levels))).Refuses pos
      (Bytes.ofCount elements.length ++ writeNamed elements) (.recursionLimit limit) := by
  rw [writeNamed_eq]
  refine .table few ?_ ?_
  · intro e mem
    rcases Nat.lt_or_ge levels e.2.height with deep | low
    · exact .inr fun pos => (Reader.Takes.u16 e.1).refuses (refused e mem deep _).map
    · have within := (stored e mem).within_iff.2 low
      exact .inl fun pos => (Reader.Takes.u16 e.1).bind (takes_write within _).map
  · obtain ⟨e, mem, deep⟩ : ∃ e ∈ elements, levels < e.2.height := by
      by_contra none
      push Not at none
      exact absurd deep (Nat.not_lt.2 (heightNamed_le_iff.2 none))
    exact ⟨e, mem, fun pos => (Reader.Takes.u16 e.1).refuses (refused e mem deep _).map⟩

theorem refuses_list {items : List ElementValue} (few : items.length < 65536)
    (stored : ∀ v ∈ items, v.Stored) (deep : levels < heightList items)
    (refused : ∀ v ∈ items, levels < v.height → ∀ pos,
      (read limit levels).Refuses pos v.write (.recursionLimit limit)) (pos : Nat) :
    (Reader.table (read limit levels)).Refuses pos
      (Bytes.ofCount items.length ++ writeList items) (.recursionLimit limit) := by
  rw [writeList_eq]
  refine .table few ?_ ?_
  · intro v mem
    rcases Nat.lt_or_ge levels v.height with deep | low
    · exact .inr (refused v mem deep)
    · exact .inl (takes_write ((stored v mem).within_iff.2 low))
  · obtain ⟨v, mem, deep⟩ : ∃ v ∈ items, levels < v.height := by
      by_contra none
      push Not at none
      exact absurd deep (Nat.not_lt.2 (heightList_le_iff.2 none))
    exact ⟨v, mem, refused v mem deep⟩

/-- A stored value that takes more levels than are left is refused for its depth. -/
theorem Stored.refuses_write {v : ElementValue} (h : v.Stored) (deep : levels < v.height)
    (pos : Nat) : (read limit levels).Refuses pos v.write (.recursionLimit limit) := by
  induction h generalizing levels pos with
  | const | enum | classInfo =>
    obtain rfl : levels = 0 := Nat.lt_one_iff.1 deep
    exact .throw _
  | @nested type elements few each ih =>
    cases levels with
    | zero => exact .throw _
    | succ levels =>
      have inside (pos : Nat) := refuses_named few each (Nat.lt_of_succ_lt_succ deep)
        (fun e mem deep pos => ih e mem deep pos) pos
      exact (Reader.Takes.u8 _).refuses ((Reader.Takes.u16 type).refuses (inside _).map)
  | @array items few each ih =>
    cases levels with
    | zero => exact .throw _
    | succ levels =>
      have inside (pos : Nat) := refuses_list few each (Nat.lt_of_succ_lt_succ deep)
        (fun v mem deep pos => ih v mem deep pos) pos
      exact (Reader.Takes.u8 _).refuses (inside _).map

end Refusing

end ElementValue

/-! ## Annotations -/

namespace AnnotationData

variable {a : AnnotationData} {limit k : Nat} {v : ElementValue}

/-- The greatest depth of a value in the annotation, zero if there is none. -/
def depth (a : AnnotationData) : Nat := ElementValue.heightNamed a.elements

/-- The value stands in the annotation at that depth: its elements at depth one, the members of an
array and the elements of a nested annotation one deeper than what holds them. -/
inductive Stands (a : AnnotationData) : Nat → ElementValue → Prop
  | element {name v} : (name, v) ∈ a.elements → Stands a 1 v
  | inner {k type elements name v} : Stands a k (.nested type elements) → (name, v) ∈ elements →
      Stands a (k + 1) v
  | member {k items v} : Stands a k (.array items) → v ∈ items → Stands a (k + 1) v

theorem Stands.height_le (h : a.Stands k v) : v.height + k ≤ a.depth + 1 := by
  induction h with
  | element mem =>
    have low := ElementValue.heightNamed_le_iff.1 (Nat.le_refl a.depth) _ mem
    exact Nat.add_le_add_right low 1
  | @inner k type elements name v _ mem ih =>
    have low := ElementValue.heightNamed_le_iff.1 (Nat.le_refl _) _ mem
    rw [ElementValue.height] at ih
    dsimp only at low
    omega
  | @member k items v _ mem ih =>
    have low := ElementValue.heightList_le_iff.1 (Nat.le_refl _) _ mem
    rw [ElementValue.height] at ih
    omega

/-- Where no value stands deeper than the limit, a value has as many levels as the limit leaves. -/
theorem Stands.height_le_of_shallow (shallow : ∀ k v, a.Stands k v → k ≤ limit)
    (h : a.Stands k v) {levels : Nat} (left : limit + 1 ≤ levels + k) : v.height ≤ levels := by
  induction levels generalizing k v with
  | zero =>
    have := shallow k v h
    omega
  | succ levels ih =>
    cases v with
    | const | enum | classInfo => simp [ElementValue.height]
    | nested type elements =>
      rw [ElementValue.height, Nat.add_le_add_iff_right, ElementValue.heightNamed_le_iff]
      intro e mem
      exact ih (h.inner mem) (by omega)
    | array items =>
      rw [ElementValue.height, Nat.add_le_add_iff_right, ElementValue.heightList_le_iff]
      intro v mem
      exact ih (h.member mem) (by omega)

/-- The depth is the greatest at which a value stands. -/
theorem depth_le_iff : a.depth ≤ limit ↔ ∀ k v, a.Stands k v → k ≤ limit := by
  constructor
  · intro low k v stands
    have := stands.height_le
    have := v.height_pos
    omega
  · intro shallow
    rw [depth, ElementValue.heightNamed_le_iff]
    intro e mem
    exact (Stands.element mem).height_le_of_shallow shallow (Nat.le_refl _)

/-- The constants of the annotation have known tags, and the lengths of its tables fit in sixteen
bits. -/
structure Stored (a : AnnotationData) : Prop where
  few : a.elements.length < 65536
  values : ∀ e ∈ a.elements, e.2.Stored

/-- What is written of an annotation is read as the annotation, up to its end, by the limits that
its depth keeps to; each smaller limit is reported as exceeded. -/
theorem read_write_depth (stored : a.Stored) (limit pos : Nat) (rest : Bytes) :
    (a.depth ≤ limit →
      read limit ⟨pos, a.write ++ rest⟩ = .ok a ⟨pos + a.write.length, rest⟩) ∧
    (limit < a.depth →
      ∃ s, read limit ⟨pos, a.write ++ rest⟩ = .error (.recursionLimit limit) s) := by
  constructor
  · intro low
    refine takes_write ⟨stored.few, fun e mem => ?_⟩ pos rest
    exact (stored.values e mem).within_iff.2 (ElementValue.heightNamed_le_iff.1 low e mem)
  · intro deep
    refine (Reader.Takes.u16 a.type).refuses (Reader.Refuses.map ?_) rest
    refine ElementValue.refuses_named stored.few stored.values deep ?_ _
    exact fun e mem deep pos => (stored.values e mem).refuses_write deep pos

/-- An array that holds a class and an annotation with a constant. -/
def threeLevels : AnnotationData :=
  ⟨1, [(2, .array [.classInfo 3, .nested 4 [(5, .const 'I'.toUInt8 6)]]), (7, .enum 8 9)]⟩

theorem stored_threeLevels : threeLevels.Stored := by
  have inner : (ElementValue.nested 4 [(5, .const 'I'.toUInt8 6)]).Stored := by
    refine .nested (by decide) ?_
    simp only [List.forall_mem_singleton]
    exact .const (by decide)
  have outer :
      (ElementValue.array [.classInfo 3, .nested 4 [(5, .const 'I'.toUInt8 6)]]).Stored := by
    refine .array (by decide) ?_
    simp only [List.forall_mem_cons]
    exact ⟨.classInfo, inner, nofun⟩
  refine ⟨by decide, ?_⟩
  simp only [threeLevels, List.forall_mem_cons]
  exact ⟨outer, .enum, nofun⟩

/-- Three levels are enough for it, and two are not. -/
theorem read_write_threeLevels :
    read 3 ⟨0, threeLevels.write ++ [0xFF]⟩ = .ok threeLevels ⟨29, [0xFF]⟩ ∧
      ∃ s, read 2 ⟨0, threeLevels.write ++ [0xFF]⟩ = .error (.recursionLimit 2) s :=
  ⟨(read_write_depth stored_threeLevels 3 0 [0xFF]).1 (by decide),
    (read_write_depth stored_threeLevels 2 0 [0xFF]).2 (by decide)⟩

end AnnotationData

end Weft
