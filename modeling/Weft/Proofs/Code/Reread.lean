import Mathlib.Data.List.Perm.Subperm
import Weft.Proofs.Code.Instructions

/-!
# Reading laid out code

The bytes of a settled layout are read as its instructions, each at its offset and with the offsets
of its targets in place of labels.
-/

namespace Weft

namespace Layout

namespace Contiguous

variable {items : List Placed} {start stop : Nat}

theorem boundary_le (h : Contiguous start items stop) {o : Nat}
    (mem : o ∈ starts items ++ [stop]) : o ≤ stop := by
  rcases List.mem_append.1 mem with mem | mem
  · obtain ⟨p, hp, rfl⟩ := List.mem_map.1 mem
    have := (h.bounds (List.mem_of_mem_filter hp)).2
    omega
  · exact Nat.le_of_eq (List.mem_singleton.1 mem)

/-- A boundary is the end if no instruction stands there. -/
theorem boundary_lt_iff (h : Contiguous start items stop) {o n : Nat}
    (at_n : (starts items ++ [stop])[n]? = some o) : o < stop ↔ n < (starts items).length := by
  constructor
  · intro lt
    by_contra last
    rw [List.getElem?_append_right (by omega)] at at_n
    have := List.mem_singleton.1 (List.mem_of_getElem? at_n)
    omega
  · intro lt
    rw [List.getElem?_append_left lt] at at_n
    exact (List.pairwise_append.1 h.sorted).2.2 o (List.mem_of_getElem? at_n) stop
      (List.mem_singleton.2 rfl)

end Contiguous

/-- Increasing numbers up to `n` are no more than these numbers. -/
theorem length_le_of_sorted {os : List Nat} {n : Nat} (sorted : os.Pairwise (· < ·))
    (bounded : ∀ o ∈ os, o ≤ n) : os.length ≤ n + 1 := by
  have within : os ⊆ List.range (n + 1) := fun o ho =>
    List.mem_range.2 (Nat.lt_succ_of_le (bounded o ho))
  have fewer := (List.subperm_of_subset (sorted.imp Nat.ne_of_lt) within).length_le
  rwa [List.length_range] at fewer

namespace Settled

variable {code : List Item} {l : Layout}

theorem near (s : Settled code l) (once : (code.filterMap Item.label?).Nodup) : l.Near := by
  intro x o h
  obtain ⟨n, -, at_n⟩ := s.boundary once h
  have := s.contiguous.boundary_le (List.mem_of_getElem? at_n)
  have := s.bounded
  simp only [limit] at this
  omega

theorem fits (s : Settled code l) {p : Placed} (hp : p ∈ l.items) {i : Instruction}
    (hi : p.item = .op i) : l.Fits p.offset p.wide i where
  widenable marked := by
    have widenable := s.wide p hp marked
    rw [hi] at widenable
    obtain ⟨op, operand⟩ := i
    cases operand with
    | branch target => exact widenable
    | _ => simp [isWidenable] at widenable
  reaches narrow target d jump found := by
    obtain ⟨op, operand⟩ := i
    simp only at jump
    subst jump
    obtain ⟨d', found', short⟩ := reaches_of_widens (s.reaches p hp) hi narrow
    obtain rfl : d = d' := Except.ok.inj (found.symm.trans found')
    exact short

end Settled

/-- The instructions among placed items, with the offsets of labels in place of the labels. -/
def located (l : Layout) (items : List Placed) : List Located :=
  items.filterMap fun p => p.item.instruction?.map fun i => ⟨p.offset, i.mapLabels l.mark⟩

theorem located_label {l : Layout} {p : Placed} {x : Label} (h : p.item = .label x)
    (items : List Placed) : l.located (p :: items) = l.located items := by
  simp [located, h, Item.instruction?]

theorem located_op {l : Layout} {p : Placed} {i : Instruction} (h : p.item = .op i)
    (items : List Placed) :
    l.located (p :: items) = ⟨p.offset, i.mapLabels l.mark⟩ :: l.located items := by
  simp [located, h, Item.instruction?]

theorem offsets_located (l : Layout) (items : List Placed) :
    (l.located items).map (·.offset) = starts items := by
  induction items with
  | nil => rfl
  | cons p rest ih =>
    cases h : p.item with
    | label x => rw [located_label h, starts_label h, ih]
    | op i => rw [located_op h, starts_op h, List.map_cons, ih]

theorem instructions_located (l : Layout) (items : List Placed) :
    (l.located items).map (·.instruction) =
      ((items.map (·.item)).filterMap Item.instruction?).map (·.mapLabels l.mark) := by
  induction items with
  | nil => rfl
  | cons p rest ih =>
    cases h : p.item with
    | label x => rw [located_label h, ih, List.map_cons, h]; rfl
    | op i => rw [located_op h, List.map_cons, ih, List.map_cons, h]; rfl

section Bytes

variable {l : Layout} {items : List Placed} {parts : List Bytes} {start stop : Nat}

theorem itemBytes_label {p : Placed} {x : Label} (h : p.item = .label x) {bs : Bytes} :
    l.itemBytes p = .ok bs ↔ bs = [] := by
  simp [itemBytes, h, eq_comm]

theorem itemBytes_op {p : Placed} {i : Instruction} (h : p.item = .op i) :
    l.itemBytes p = l.instructionBytes p.offset p.wide i := by
  simp [itemBytes, h]

/-- The bytes of an item are as many as its size. -/
theorem length_itemBytes {p : Placed} {bs : Bytes} (h : l.itemBytes p = .ok bs) :
    bs.length = p.size := by
  cases hp : p.item with
  | label x =>
    rw [(itemBytes_label hp).1 h, Placed.size_label hp]
    rfl
  | op i =>
    rw [itemBytes_op hp] at h
    rw [length_instructionBytes h, Placed.size_op hp]

/-- The items end where their bytes do. -/
theorem Contiguous.stop_eq (joined : Contiguous start items stop)
    (written : List.Forall₂ (fun p bs => l.itemBytes p = .ok bs) items parts) :
    start + parts.flatten.length = stop := by
  induction written generalizing start with
  | nil => exact joined
  | cons head _ ih =>
    rw [List.flatten_cons, List.length_append, length_itemBytes head, ← Nat.add_assoc]
    exact ih joined.2

/-- What each instruction among placed items needs to be read back. -/
structure Readable (l : Layout) (p : Placed) : Prop where
  shape : ∀ i, p.item = .op i → i.WellShaped
  fits : ∀ i, p.item = .op i → l.Fits p.offset p.wide i

/-- Instructions are read item by item; a label leaves nothing to read. -/
theorem readAll_items (near : l.Near) (small : stop ≤ 65535)
    (joined : Contiguous start items stop) (readable : ∀ p ∈ items, l.Readable p)
    (written : List.Forall₂ (fun p bs => l.itemBytes p = .ok bs) items parts) {fuel : Nat}
    (enough : parts.flatten.length ≤ fuel) (acc : List Located) :
    Located.readAll fuel acc ⟨start, parts.flatten⟩ =
      .ok (acc.reverse ++ l.located items) ⟨stop, []⟩ := by
  induction written generalizing start fuel acc with
  | nil =>
    obtain rfl : start = stop := joined
    cases fuel with
    | zero => simp [Located.readAll, located]; rfl
    | succ fuel => simp [Located.readAll, located]; rfl
  | @cons p bs items parts head tail ih =>
    have in_place := joined.bounds List.mem_cons_self
    obtain ⟨rfl, joined⟩ := joined
    have later := fun q hq => readable q (List.mem_cons_of_mem p hq)
    cases hp : p.item with
    | label x =>
      rw [Placed.size_label hp, Nat.add_zero] at joined
      rw [(itemBytes_label hp).1 head, List.flatten_cons, List.nil_append, located_label hp] at *
      exact ih joined later enough acc
    | op i =>
      have size := length_itemBytes head
      have size_pos : 0 < p.size := by rw [Placed.size_op hp]; exact i.size_pos _ _
      rw [List.flatten_cons, List.length_append] at enough
      obtain ⟨fuel, rfl⟩ : ∃ k, fuel = k + 1 := ⟨fuel - 1, by omega⟩
      have taken := takes_instructionBytes near (by omega)
        ((readable p List.mem_cons_self).shape i hp) ((readable p List.mem_cons_self).fits i hp)
        (by rw [← Placed.size_op hp]; omega) (itemBytes_op hp ▸ head) parts.flatten
      have more : Reader.hasMore ⟨p.offset, (bs :: parts).flatten⟩ =
          .ok true ⟨p.offset, (bs :: parts).flatten⟩ := by
        cases bs with
        | nil => simp at size; omega
        | cons b bs => rfl
      rw [Located.readAll, step_bind_ok more, if_pos rfl,
        step_bind_ok (show Reader.pos _ = .ok p.offset _ from rfl), List.flatten_cons,
        step_bind_ok taken, size, ih joined later (by omega), located_op hp]
      simp

end Bytes

/-- The bytes of a settled layout are read as its instructions. -/
theorem Settled.ofBytes_bytes {code : List Item} {l : Layout} (s : Settled code l)
    (once : (code.filterMap Item.label?).Nodup)
    (shaped : ∀ i ∈ code.filterMap Item.instruction?, i.WellShaped) {bs : Bytes}
    (h : l.bytes = .ok bs) :
    bs.length = l.size ∧ Located.ofBytes bs = .ok (l.located l.items) := by
  obtain ⟨parts, written, rfl⟩ := except_map_eq_ok.1 h
  rw [except_mapM_eq_ok] at written
  have size := s.contiguous.stop_eq written
  rw [Nat.zero_add] at size
  refine ⟨size, ?_⟩
  have readable : ∀ p ∈ l.items, l.Readable p := fun p hp =>
    { shape := fun i hi => shaped i <| List.mem_filterMap.2
        ⟨.op i, by rw [← s.items, ← hi]; exact List.mem_map_of_mem hp, rfl⟩
      fits := fun i hi => s.fits hp hi }
  have taken := readAll_items (s.near once) s.bounded s.contiguous readable written
    (Nat.le_refl _) []
  simp only [Located.ofBytes, Reader.parse, Input.ofBytes, taken]
  rfl

end Layout

end Weft
