import Mathlib.Data.List.Forall2
import Weft.Code.Encode
import Weft.Proofs.Steps

/-!
# What a layout settles

A layout that was found places each item where the one before it ends, has at most `limit` bytes,
leaves no jump narrow that does not reach, and widens only jumps that have a wide form. The label
at a position between instructions stands at the offset of the instruction behind it.
-/

namespace Weft

/-! ## Positions in code -/

/-- The label that the item places. -/
def Item.label? : Item → Option Label
  | .label l => some l
  | .op _ => none

theorem Item.label?_eq_some {item : Item} {l : Label} : item.label? = some l ↔ item = .label l := by
  cases item <;> simp [label?]

theorem mem_filterMap_label? {code : List Item} {l : Label} :
    l ∈ code.filterMap Item.label? ↔ .label l ∈ code := by
  simp [List.mem_filterMap, Item.label?_eq_some]

/-- The number of instructions before a label of the code. -/
def position? (l : Label) : List Item → Option Nat
  | [] => none
  | .label m :: rest => if m = l then some 0 else position? l rest
  | .op _ :: rest => (position? l rest).map (· + 1)

/-! ## Sizes -/

/-- Every instruction takes at least a byte. -/
theorem Instruction.size_pos (offset : Nat) (wide : Bool) (i : Instruction) :
    0 < i.size offset wide := by
  unfold Instruction.size
  cases i.operand <;> simp only <;> (try split) <;> omega

/-- The bytes of a placed item. -/
def Placed.size (p : Placed) : Nat := p.toSized.size p.offset

theorem Placed.size_label {p : Placed} {l : Label} (h : p.item = .label l) : p.size = 0 := by
  simp [Placed.size, Sized.size, h]

theorem Placed.size_op {p : Placed} {i : Instruction} (h : p.item = .op i) :
    p.size = i.size p.offset p.wide := by
  simp [Placed.size, Sized.size, h]

namespace Layout

/-! ## Items one behind the other -/

/-- Each item from `start` on stands where the one before it ends, and the last ends at `stop`. -/
def Contiguous : Nat → List Placed → Nat → Prop
  | start, [], stop => start = stop
  | start, p :: rest, stop => p.offset = start ∧ Contiguous (start + p.size) rest stop

theorem place_go (code : List Sized) (start : Nat) (acc : List Placed) :
    ∃ items stop, place.go code start acc = (acc.reverse ++ items, stop) ∧
      items.map (·.toSized) = code ∧ Contiguous start items stop := by
  induction code generalizing start acc with
  | nil => exact ⟨[], start, by simp [place.go], rfl, rfl⟩
  | cons s rest ih =>
    obtain ⟨items, stop, placed, same, joined⟩ := ih (start + s.size start) (⟨s, start⟩ :: acc)
    exact ⟨⟨s, start⟩ :: items, stop, by simp [place.go, placed], by simp [same], rfl, joined⟩

theorem contiguous_ofSized (code : List Sized) :
    (ofSized code).items.map (·.toSized) = code ∧
      Contiguous 0 (ofSized code).items (ofSized code).size := by
  obtain ⟨items, stop, placed, same, joined⟩ := place_go code 0 []
  rw [ofSized, place, placed]
  exact ⟨same, joined⟩

namespace Contiguous

variable {items : List Placed} {start stop : Nat}

theorem le (h : Contiguous start items stop) : start ≤ stop := by
  induction items generalizing start with
  | nil => exact Nat.le_of_eq h
  | cons p rest ih => exact Nat.le_trans (Nat.le_add_right _ _) (ih h.2)

theorem bounds (h : Contiguous start items stop) {p : Placed} (hp : p ∈ items) :
    start ≤ p.offset ∧ p.offset + p.size ≤ stop := by
  induction items generalizing start with
  | nil => cases hp
  | cons q rest ih =>
    obtain ⟨rfl, joined⟩ := h
    rcases List.mem_cons.1 hp with rfl | hp
    · exact ⟨Nat.le_refl _, joined.le⟩
    · have := ih joined hp
      exact ⟨by omega, this.2⟩

end Contiguous

/-- The offsets of the instructions among placed items. -/
def starts (items : List Placed) : List Nat :=
  (items.filter (·.item.instruction?.isSome)).map (·.offset)

theorem starts_label {p : Placed} {l : Label} (h : p.item = .label l) (items : List Placed) :
    starts (p :: items) = starts items := by
  simp [starts, h, Item.instruction?]

theorem starts_op {p : Placed} {i : Instruction} (h : p.item = .op i) (items : List Placed) :
    starts (p :: items) = p.offset :: starts items := by
  simp [starts, h, Item.instruction?]

theorem length_starts (items : List Placed) :
    (starts items).length = ((items.map (·.item)).filterMap Item.instruction?).length := by
  induction items with
  | nil => rfl
  | cons p rest ih =>
    cases h : p.item with
    | label l => rw [starts_label h, ih, List.map_cons, h]; rfl
    | op i => rw [starts_op h, List.length_cons, ih, List.map_cons, h]; rfl

namespace Contiguous

variable {items : List Placed} {start stop : Nat}

/-- The first boundary is where the items start. -/
theorem head_boundary (h : Contiguous start items stop) :
    (starts items ++ [stop])[0]? = some start := by
  induction items generalizing start with
  | nil => simp [starts, show start = stop from h]
  | cons p rest ih =>
    obtain ⟨rfl, joined⟩ := h
    cases hp : p.item with
    | label l =>
      rw [starts_label hp]
      rw [Placed.size_label hp, Nat.add_zero] at joined
      exact ih joined
    | op i => rw [starts_op hp]; rfl

/-- Boundaries increase. -/
theorem sorted (h : Contiguous start items stop) :
    (starts items ++ [stop]).Pairwise (· < ·) := by
  induction items generalizing start with
  | nil => simp [starts]
  | cons p rest ih =>
    obtain ⟨rfl, joined⟩ := h
    cases hp : p.item with
    | label l => rw [starts_label hp]; exact ih joined
    | op i =>
      rw [starts_op hp, List.cons_append, List.pairwise_cons]
      have pos : 0 < p.size := by rw [Placed.size_op hp]; exact i.size_pos _ _
      refine ⟨fun o ho => ?_, ih joined⟩
      rcases List.mem_append.1 ho with ho | ho
      · obtain ⟨q, hq, rfl⟩ := List.mem_map.1 ho
        have := (joined.bounds (List.mem_of_mem_filter hq)).1
        omega
      · have := joined.le
        simp only [List.mem_singleton] at ho
        omega

/-- A label stands at the boundary that its position counts. -/
theorem boundary_of_position (h : Contiguous start items stop) {p : Placed} {l : Label}
    (hp : p ∈ items) (hl : p.item = .label l)
    (once : ((items.map (·.item)).filterMap Item.label?).Nodup) :
    ∃ n, position? l (items.map (·.item)) = some n ∧
      (starts items ++ [stop])[n]? = some p.offset := by
  induction items generalizing start with
  | nil => cases hp
  | cons q rest ih =>
    obtain ⟨rfl, joined⟩ := h
    cases hq : q.item with
    | label m =>
      rw [starts_label hq]
      rw [Placed.size_label hq, Nat.add_zero] at joined
      simp only [List.map_cons, hq, List.filterMap_cons, Item.label?, List.nodup_cons] at once
      rcases List.mem_cons.1 hp with rfl | hp
      · rw [hl] at hq
        cases hq
        exact ⟨0, by simp [position?, hl], joined.head_boundary⟩
      · have other : m ≠ l := by
          rintro rfl
          exact once.1 (List.mem_filterMap.2 ⟨_, List.mem_map_of_mem hp, by rw [hl]; rfl⟩)
        obtain ⟨n, hn, at_n⟩ := ih joined hp once.2
        exact ⟨n, by simp [position?, hq, other, hn], at_n⟩
    | op i =>
      rw [starts_op hq]
      simp only [List.map_cons, hq, List.filterMap_cons, Item.label?] at once
      rcases List.mem_cons.1 hp with rfl | hp
      · rw [hl] at hq; cases hq
      · obtain ⟨n, hn, at_n⟩ := ih joined hp once
        exact ⟨n + 1, by simp [position?, hq, hn], by simpa using at_n⟩

end Contiguous

/-! ## Labels -/

/-- The offsets of labels with that of the label which the item may place. -/
def noteLabel (m : Std.HashMap Label Nat) (p : Placed) : Std.HashMap Label Nat :=
  match p.item with
  | .label l => m.insert l p.offset
  | .op _ => m

theorem labelOffsets_eq (items : List Placed) : labelOffsets items = items.foldl noteLabel ∅ := rfl

/-- The offset of the last of the items that place the label. -/
def lastOffset? (x : Label) : List Placed → Option Nat
  | [] => none
  | p :: rest => (lastOffset? x rest).or (if p.item = .label x then some p.offset else none)

theorem foldl_noteLabel (items : List Placed) (x : Label) (m : Std.HashMap Label Nat) :
    (items.foldl noteLabel m)[x]? = (lastOffset? x items).or m[x]? := by
  induction items generalizing m with
  | nil => rfl
  | cons p rest ih =>
    rw [List.foldl_cons, ih, lastOffset?, Option.or_assoc]
    congr 1
    unfold noteLabel
    cases item : p.item with
    | label l =>
      rw [Std.HashMap.getElem?_insert]
      by_cases same : l = x
      · simp [same]
      · simp [same]
    | op i => simp

theorem labelOffsets_getElem? (items : List Placed) (x : Label) :
    (labelOffsets items)[x]? = lastOffset? x items := by
  rw [labelOffsets_eq, foldl_noteLabel, Std.HashMap.getElem?_empty, Option.or_none]

theorem isSome_lastOffset?_iff {items : List Placed} {x : Label} :
    (lastOffset? x items).isSome = true ↔ .label x ∈ items.map (·.item) := by
  induction items with
  | nil => simp [lastOffset?]
  | cons p rest ih =>
    rw [lastOffset?, Option.isSome_or, Bool.or_eq_true, ih, List.map_cons, List.mem_cons, or_comm]
    refine or_congr_left ?_
    by_cases same : p.item = .label x
    · simp [same]
    · simp [same, Ne.symm same]

/-- Where labels are placed once, the offset of a label is that of the item that places it. -/
theorem lastOffset?_eq_some_iff {items : List Placed} {l : Label} {o : Nat}
    (once : ((items.map (·.item)).filterMap Item.label?).Nodup) :
    lastOffset? l items = some o ↔ ∃ p ∈ items, p.item = .label l ∧ p.offset = o := by
  induction items with
  | nil => simp [lastOffset?]
  | cons q rest ih =>
    rw [List.map_cons] at once
    have later := once.sublist ((List.sublist_cons_self _ _).filterMap _)
    rw [lastOffset?, List.exists_mem_cons_iff]
    by_cases here : q.item = .label l
    · have absent : Item.label l ∉ rest.map (·.item) := by
        rw [here, List.filterMap_cons_some (by rfl), List.nodup_cons] at once
        exact mt mem_filterMap_label?.2 once.1
      have none_later := mt isSome_lastOffset?_iff.1 absent
      rw [Option.not_isSome_iff_eq_none.1 none_later, Option.none_or, if_pos here,
        Option.some.injEq]
      refine ⟨fun same => .inl ⟨here, same⟩, ?_⟩
      rintro (⟨-, same⟩ | ⟨p, mem, placed, -⟩)
      · exact same
      · exact absurd (placed ▸ List.mem_map_of_mem mem) absent
    · rw [if_neg here, Option.or_none, ih later]
      exact ⟨.inr, fun found => found.resolve_left fun first => here first.1⟩

theorem labelOffsets_eq_some_iff {items : List Placed} {l : Label} {o : Nat}
    (once : ((items.map (·.item)).filterMap Item.label?).Nodup) :
    (labelOffsets items)[l]? = some o ↔ ∃ p ∈ items, p.item = .label l ∧ p.offset = o := by
  rw [labelOffsets_getElem?, lastOffset?_eq_some_iff once]

theorem labels_of_offsetOf {l : Layout} {x : Label} {o : Nat} (h : l.offsetOf x = .ok o) :
    l.labels[x]? = some o := by
  unfold offsetOf at h
  split at h
  · rename_i o' found
    cases h
    exact found
  · cases h

/-! ## Jumps that do not reach -/

theorem narrowBranch?_eq_some {p : Placed} {op : Opcode} {target : Label} :
    p.narrowBranch? = some (op, target) ↔
      p.item = .op ⟨op, .branch target⟩ ∧ p.wide = false := by
  unfold Placed.narrowBranch?
  constructor
  · intro h
    split at h
    · split at h
      · cases h
      · cases h
        exact ⟨by assumption, eq_false_of_ne_true (by assumption)⟩
    · cases h
  · rintro ⟨item, narrow⟩
    rw [item, narrow]
    rfl

/-- What a round finds at an item: it is no narrow jump, or one that reaches its target, or one that
does not and has a wide form. -/
theorem widens_eq_ok {l : Layout} {p : Placed} {w : Bool} (h : l.widens p = .ok w) :
    (p.narrowBranch? = none ∧ w = false) ∨
      ∃ op target d, p.item = .op ⟨op, .branch target⟩ ∧ p.wide = false ∧
        l.distance p.offset target = .ok d ∧
        (isShort d = true ∧ w = false ∨ isShort d = false ∧ canWiden op = true ∧ w = true) := by
  unfold widens at h
  split at h
  · rename_i other
    cases h
    exact .inl ⟨other, rfl⟩
  · rename_i op target narrow
    obtain ⟨item, narrow⟩ := narrowBranch?_eq_some.1 narrow
    obtain ⟨d, found, h⟩ := except_bind_eq_ok.1 h
    refine .inr ⟨op, target, d, item, narrow, found, ?_⟩
    split at h
    · rename_i short
      exact .inl ⟨short, (except_pure_eq_ok.1 h).symm⟩
    · rename_i far
      split at h
      · rename_i can
        exact .inr ⟨eq_false_of_ne_true far, can, (except_pure_eq_ok.1 h).symm⟩
      · cases h

/-- What is widened is a narrow jump that has a wide form, to a place that is out of its reach. -/
theorem widens_eq_true {l : Layout} {p : Placed} (h : l.widens p = .ok true) :
    ∃ op target d, p.item = .op ⟨op, .branch target⟩ ∧ p.wide = false ∧
      l.distance p.offset target = .ok d ∧ isShort d = false ∧ canWiden op = true := by
  rcases widens_eq_ok h with
    ⟨-, not⟩ | ⟨op, target, d, item, narrow, found, ⟨-, not⟩ | ⟨far, can, -⟩⟩
  · cases not
  · cases not
  · exact ⟨op, target, d, item, narrow, found, far, can⟩

/-- Only a jump that has a wide form asks to be widened. -/
theorem widenable_of_widens {l : Layout} {p : Placed} (h : l.widens p = .ok true) :
    isWidenable p.item = true := by
  obtain ⟨op, target, d, item, -, -, -, can⟩ := widens_eq_true h
  rw [item]
  exact can

/-- A jump that a round leaves narrow reaches its target. -/
theorem reaches_of_widens {l : Layout} {p : Placed} {op : Opcode} {x : Label}
    (h : l.widens p = .ok false) (branch : p.item = .op ⟨op, .branch x⟩) (narrow : p.wide = false) :
    ∃ d, l.distance p.offset x = .ok d ∧ isShort d = true := by
  rcases widens_eq_ok h with ⟨other, -⟩ | ⟨op', x', d, item, -, found, ⟨short, -⟩ | ⟨-, -, not⟩⟩
  · rw [narrowBranch?_eq_some.2 ⟨branch, narrow⟩] at other
    cases other
  · cases branch.symm.trans item
    exact ⟨d, found, short⟩
  · cases not

/-! ## Settled layouts -/

/-- What holds of the layout that is found for code. -/
structure Settled (code : List Item) (l : Layout) : Prop where
  items : l.items.map (·.item) = code
  contiguous : Contiguous 0 l.items l.size
  labels : l.labels = labelOffsets l.items
  bounded : l.size ≤ limit
  reaches : ∀ p ∈ l.items, l.widens p = .ok false
  wide : ∀ p ∈ l.items, p.wide = true → isWidenable p.item = true

/-- A round keeps the code and widens only jumps that have a wide form. -/
theorem widen_sound {l : Layout} {sized : List Sized} {changed : Bool}
    (h : l.widen = .ok (sized, changed))
    (wide : ∀ p ∈ l.items, p.wide = true → isWidenable p.item = true) :
    sized.map (·.item) = l.items.map (·.item) ∧
      (∀ s ∈ sized, s.wide = true → isWidenable s.item = true) ∧
      (changed = false → ∀ p ∈ l.items, l.widens p = .ok false) := by
  obtain ⟨widened, each, h⟩ := except_bind_eq_ok.1 h
  rw [except_mapM_eq_ok] at each
  simp only [except_pure_eq_ok, Prod.mk.injEq] at h
  obtain ⟨rfl, rfl⟩ := h
  generalize l.items = items at each wide
  clear h
  induction each with
  | nil => simp
  | @cons p s items widened head _ ih =>
    obtain ⟨w, hw, hs⟩ := except_bind_eq_ok.1 head
    cases except_pure_eq_ok.1 hs
    obtain ⟨same, sound, done⟩ := ih fun q hq => wide q (List.mem_cons_of_mem p hq)
    refine ⟨by simpa using same, ?_, ?_⟩
    · intro s hs
      rcases List.mem_cons.1 hs with rfl | hs
      · intro marked
        rcases Bool.or_eq_true_iff.1 marked with old | new
        · exact wide p List.mem_cons_self old
        · exact widenable_of_widens (hw.trans (congrArg _ new))
      · exact sound s hs
    · intro unchanged q hq
      simp only [List.any_cons, Bool.or_eq_false_iff] at unchanged
      rcases List.mem_cons.1 hq with rfl | hq
      · exact hw.trans (congrArg _ unchanged.1)
      · exact done unchanged.2 q hq

/-- What a round keeps that widens something holds of the layout of the last round. -/
theorem settle_keeps {I : List Sized → Prop} {P : Layout → Prop}
    (again : ∀ code sized, I code → (ofSized code).widen = .ok (sized, true) → I sized)
    (last : ∀ code sized, I code → (ofSized code).size ≤ limit →
      (ofSized code).widen = .ok (sized, false) → P (ofSized code))
    {fuel : Nat} {code : List Sized} {l : Layout} (h : settle fuel code = .ok l) (start : I code) :
    P l := by
  induction fuel generalizing code with
  | zero => cases h
  | succ fuel ih =>
    simp only [settle] at h
    split at h
    · cases h
    · rename_i fits
      obtain ⟨⟨sized, changed⟩, round, h⟩ := except_bind_eq_ok.1 h
      cases changed with
      | true => exact ih h (again code sized start round)
      | false =>
        cases except_pure_eq_ok.1 h
        exact last code sized start (Nat.le_of_not_lt fits) round

theorem items_ofSized (code : List Sized) :
    (ofSized code).items.map (·.item) = code.map (·.item) := by
  conv_rhs => rw [← (contiguous_ofSized code).1, List.map_map]
  rfl

theorem settled_of_settle {fuel : Nat} {code : List Sized} {l : Layout}
    (h : settle fuel code = .ok l)
    (wide : ∀ s ∈ code, s.wide = true → isWidenable s.item = true) :
    Settled (code.map (·.item)) l := by
  have placed {sized : List Sized} (wide : ∀ s ∈ sized, s.wide = true → isWidenable s.item = true) :
      ∀ p ∈ (ofSized sized).items, p.wide = true → isWidenable p.item = true := fun p mem =>
    wide p.toSized ((contiguous_ofSized sized).1 ▸ List.mem_map_of_mem mem)
  refine settle_keeps (I := fun sized => sized.map (·.item) = code.map (·.item) ∧
    ∀ s ∈ sized, s.wide = true → isWidenable s.item = true) ?again ?last h ⟨rfl, wide⟩
  case again =>
    intro before after ⟨same, wide⟩ round
    obtain ⟨kept, sound, -⟩ := widen_sound round (placed wide)
    exact ⟨kept.trans ((items_ofSized before).trans same), sound⟩
  case last =>
    intro before after ⟨same, wide⟩ fits round
    obtain ⟨-, -, done⟩ := widen_sound round (placed wide)
    exact ⟨(items_ofSized before).trans same, (contiguous_ofSized before).2, rfl, fits, done rfl,
      placed wide⟩

/-- The layout that is found for code is settled. -/
theorem settled_of_ofCode {code : List Item} {l : Layout} (h : ofCode code = .ok l) :
    Settled code l := by
  have settled := settled_of_settle h (by simp)
  rwa [List.map_map, show (fun s : Sized => s.item) ∘ (fun i => { item := i }) = id from rfl,
    List.map_id] at settled

namespace Settled

variable {code : List Item} {l : Layout}

/-- A label that is placed stands at the boundary that its position counts. -/
theorem boundary (s : Settled code l) (once : (code.filterMap Item.label?).Nodup) {x : Label}
    {o : Nat} (h : l.offsetOf x = .ok o) :
    ∃ n, position? x code = some n ∧ (starts l.items ++ [l.size])[n]? = some o := by
  have found : (labelOffsets l.items)[x]? = some o := by
    rw [← s.labels]
    exact labels_of_offsetOf h
  rw [← s.items] at once ⊢
  obtain ⟨p, hp, placed, rfl⟩ := (labelOffsets_eq_some_iff once).1 found
  exact s.contiguous.boundary_of_position hp placed once

end Settled

end Layout

end Weft
