import Weft.Code.Decode
import Weft.Proofs.Code.Layout

/-!
# Labels in decoded code

The labels of a table differ from one offset to another, so that in the code which is made of
located instructions the label of a boundary has that boundary's position.
-/

namespace Weft

namespace LabelTable

/-- Each offset of the list that `referenced` holds has a label, other offsets have none, and no
two offsets have the same. -/
structure Numbers (table : LabelTable) (referenced : Nat → Prop) (offsets : List Nat) : Prop where
  found : ∀ o : Nat, referenced o → o ∈ offsets → ∃ x, table[o]? = some x
  apart : ∀ (o o' : Nat) x, table[o]? = some x → table[o']? = some x → o = o'

section Numbering

variable {referenced : Std.HashSet Nat} {offsets : List Nat}

theorem distinct_keys (sorted : offsets.Pairwise (· < ·)) :
    ((offsets.filter referenced.contains).zipIdx.map fun (o, i) =>
      (o, (⟨UInt32.ofNat i⟩ : Label))).Pairwise fun a b => (a.1 == b.1) = false := by
  rw [List.pairwise_map]
  have keys : ((offsets.filter referenced.contains).zipIdx.map Prod.fst).Pairwise (· < ·) := by
    rw [List.zipIdx_map_fst]
    exact sorted.filter _
  exact (List.pairwise_map.1 keys).imp fun h => by simpa using Nat.ne_of_lt h

/-- The label of an offset is its index among those that are referred to. -/
theorem number_eq_some_iff (sorted : offsets.Pairwise (· < ·)) {o : Nat} {x : Label} :
    (number referenced offsets)[o]? = some x ↔
      ∃ i, (offsets.filter referenced.contains)[i]? = some o ∧ x = ⟨UInt32.ofNat i⟩ := by
  unfold number
  constructor
  · intro h
    by_cases mem : o ∈ offsets.filter referenced.contains
    · obtain ⟨i, hi⟩ := List.mem_iff_getElem?.1 mem
      refine ⟨i, hi, ?_⟩
      rw [Std.HashMap.getElem?_ofList_of_mem (BEq.refl o) (distinct_keys sorted)
        (List.mem_map.2 ⟨(o, i), List.mk_mem_zipIdx_iff_getElem?.2 hi, rfl⟩)] at h
      exact (Option.some.inj h).symm
    · rw [Std.HashMap.getElem?_ofList_of_contains_eq_false] at h
      · cases h
      · rw [List.map_map, ← Bool.not_eq_true, List.contains_iff_mem]
        intro h
        obtain ⟨⟨o', i⟩, hi, rfl⟩ := List.mem_map.1 h
        exact mem (List.mem_of_getElem? (List.mk_mem_zipIdx_iff_getElem?.1 hi))
  · rintro ⟨i, hi, rfl⟩
    exact Std.HashMap.getElem?_ofList_of_mem (BEq.refl o) (distinct_keys sorted)
      (List.mem_map.2 ⟨(o, i), List.mk_mem_zipIdx_iff_getElem?.2 hi, rfl⟩)

/-- Increasing offsets get labels of their own if few enough of them are referred to. -/
theorem numbers_number (sorted : offsets.Pairwise (· < ·))
    (few : (offsets.filter referenced.contains).length ≤ 4294967296) :
    (number referenced offsets).Numbers (· ∈ referenced) offsets where
  found o known mem := by
    obtain ⟨i, hi⟩ := List.mem_iff_getElem?.1
      (List.mem_filter.2 ⟨mem, Std.HashSet.contains_iff_mem.2 known⟩)
    exact ⟨_, (number_eq_some_iff sorted).2 ⟨i, hi, rfl⟩⟩
  apart o o' x h h' := by
    obtain ⟨i, hi, rfl⟩ := (number_eq_some_iff sorted).1 h
    obtain ⟨j, hj, same⟩ := (number_eq_some_iff sorted).1 h'
    have i_lt := (List.getElem?_eq_some_iff.1 hi).1
    have j_lt := (List.getElem?_eq_some_iff.1 hj).1
    have numbers := congrArg (fun l : Label => l.number.toNat) same
    simp only [UInt32.toNat_ofNat'] at numbers
    rw [Nat.mod_eq_of_lt (by omega), Nat.mod_eq_of_lt (by omega)] at numbers
    subst numbers
    exact Option.some.inj (hi.symm.trans hj)

end Numbering

/-! ## Positions -/

section Positions

variable {table : LabelTable} {referenced : Nat → Prop} {offsets : List Nat}

theorem Numbers.get_label (numbers : table.Numbers referenced offsets) {o : Nat}
    (known : referenced o) (mem : o ∈ offsets) : table[o]? = some (table.label o) := by
  obtain ⟨x, hx⟩ := numbers.found o known mem
  rw [label, Std.HashMap.getD_eq_getD_getElem?, hx]
  rfl

theorem instructions_mark (table : LabelTable) (o : Nat) :
    (table.mark o).filterMap Item.instruction? = [] := by
  unfold mark
  split <;> rfl

theorem instructions_items (table : LabelTable) (i : Located) :
    (table.items i).filterMap Item.instruction? =
      [i.instruction.mapLabels fun l => table.label l.number.toNat] := by
  rw [items, List.filterMap_append, instructions_mark]
  rfl

/-- The instructions of decoded code are those that were located. -/
theorem instructions_code (table : LabelTable) (located : List Located) (o : Nat) :
    (located.flatMap table.items ++ table.mark o).filterMap Item.instruction? =
      located.map fun i => i.instruction.mapLabels fun l => table.label l.number.toNat := by
  rw [List.filterMap_append, instructions_mark, List.append_nil, List.filterMap_flatMap]
  simp only [instructions_items]
  exact List.flatMap_pure_eq_map _ located

theorem position_mark_append {x : Label} {o : Nat} (at_o : table[o]? = some x) (rest : List Item) :
    position? x (table.mark o ++ rest) = some 0 := by
  simp [mark, at_o, position?]

theorem position_mark_append_of_ne {x : Label} {o : Nat} (other : table[o]? ≠ some x)
    (rest : List Item) : position? x (table.mark o ++ rest) = position? x rest := by
  unfold mark
  split
  · rename_i y hy
    have : y ≠ x := fun h => other (h ▸ hy)
    simp [position?, this]
  · rfl

/-- In decoded code the label of a boundary has the position of the boundary. -/
theorem Numbers.position_code (numbers : table.Numbers referenced offsets)
    {located : List Located} {stop o n : Nat}
    (sorted : (located.map (·.offset) ++ [stop]).Pairwise (· < ·))
    (at_n : (located.map (·.offset) ++ [stop])[n]? = some o) {x : Label}
    (hx : table[o]? = some x) :
    position? x (located.flatMap table.items ++ table.mark stop) = some n := by
  induction located generalizing n with
  | nil =>
    obtain ⟨rfl, rfl⟩ : n = 0 ∧ stop = o := by
      cases n <;> simp_all
    have here := position_mark_append hx []
    rwa [List.append_nil] at here
  | cons i rest ih =>
    rw [List.flatMap_cons, items, List.append_assoc, List.append_assoc]
    cases n with
    | zero =>
      obtain rfl : i.offset = o := by simpa using at_n
      exact position_mark_append hx _
    | succ n =>
      simp only [List.map_cons, List.cons_append, List.getElem?_cons_succ] at at_n sorted
      rw [List.pairwise_cons] at sorted
      have other : table[i.offset]? ≠ some x := by
        intro h
        have := sorted.1 o (List.mem_of_getElem? at_n)
        have := numbers.apart _ _ _ h hx
        omega
      rw [position_mark_append_of_ne other, List.singleton_append, position?, ih sorted.2 at_n]
      rfl

end Positions

end LabelTable

end Weft
