import Mathlib.Data.List.Pairwise
import Weft.Proofs.Code.Instructions

/-!
# Layouts are tight

Code without switches may be given rooms, one for each item and one behind the other, in which its
instructions fit and out of which its jumps reach, unless the room is one for a wide jump. The layout
that is found for the code never takes more for an item than such a room. So rooms that take no more
than the layout as a whole are where the layout puts the items.
-/

namespace Weft

/-- The size of the instruction depends on its place. -/
def Instruction.isSwitch (i : Instruction) : Bool :=
  match i.operand with
  | .tableSwitch .. | .lookupSwitch .. => true
  | _ => false

theorem Instruction.size_of_isSwitch {i : Instruction} (h : i.isSwitch = false)
    (offset offset' : Nat) (wide : Bool) : i.size offset wide = i.size offset' wide := by
  obtain ⟨op, operand⟩ := i
  cases operand with
  | tableSwitch default low targets => cases h
  | lookupSwitch default pairs => cases h
  | _ => rfl

/-- The code has no switches. -/
def Switchless (code : List Item) : Prop := ∀ i, .op i ∈ code → i.isSwitch = false

theorem Sized.size_of_isSwitch {s : Sized} (h : ∀ i, s.item = .op i → i.isSwitch = false)
    (offset offset' : Nat) : s.size offset = s.size offset' := by
  unfold Sized.size
  cases item : s.item with
  | label l => rfl
  | op i => exact Instruction.size_of_isSwitch (h i item) offset offset' s.wide

/-- A place in code that an item is given. -/
structure Room where
  item : Item
  offset : Nat
  length : Nat

namespace Room

/-- Each room from `start` on is where the one before it ends, and the last ends at `stop`. -/
def Adjoin : Nat → List Room → Nat → Prop
  | start, [], stop => start = stop
  | start, r :: rest, stop => r.offset = start ∧ Adjoin (start + r.length) rest stop

/-- The rooms have space for plain instructions, and for a wide jump where a jump does not reach. -/
structure Ample (rooms : List Room) : Prop where
  fits : ∀ r ∈ rooms, ∀ i, r.item = .op i → i.size r.offset false ≤ r.length
  reaches : ∀ r ∈ rooms, ∀ op target, r.item = .op ⟨op, .branch target⟩ →
    ∀ q ∈ rooms, q.item = .label target →
      Layout.isShort ((q.offset : Int) - r.offset) = true ∨ 5 ≤ r.length

/-- The room is for the item and has space for it. -/
def Takes (r : Room) (s : Sized) : Prop := s.item = r.item ∧ ∀ offset, s.size offset ≤ r.length

end Room

namespace Layout

open Room

variable {items : List Placed} {rooms : List Room} {start stop start' stop' : Nat}

/-- What is placed in rooms is spread no further than the rooms. -/
theorem Contiguous.spread (joined : Contiguous start items stop) (adjoined : Adjoin start' rooms stop')
    (held : List.Forall₂ (fun p r => r.Takes p.toSized) items rooms) :
    stop + start' ≤ stop' + start ∧ ∀ a ∈ items.zip rooms,
      start ≤ a.1.offset ∧ a.1.offset + start' ≤ a.2.offset + start := by
  induction held generalizing start start' with
  | nil =>
    obtain rfl : start = stop := joined
    obtain rfl : start' = stop' := adjoined
    exact ⟨Nat.add_comm _ _ ▸ Nat.le_refl _, fun a mem => nomatch mem⟩
  | @cons p r items rooms head tail ih =>
    obtain ⟨rfl, joined⟩ := joined
    obtain ⟨rfl, adjoined⟩ := adjoined
    obtain ⟨total, each⟩ := ih joined adjoined
    have size : p.size ≤ r.length := head.2 p.offset
    refine ⟨by omega, fun a mem => ?_⟩
    rcases List.mem_cons.1 mem with rfl | mem
    · exact ⟨Nat.le_refl _, Nat.add_comm _ _ ▸ Nat.le_refl _⟩
    · have := each a mem
      omega

/-- Two items are no further apart than their rooms. -/
theorem Contiguous.apart (joined : Contiguous start items stop) (adjoined : Adjoin start' rooms stop')
    (held : List.Forall₂ (fun p r => r.Takes p.toSized) items rooms) :
    (items.zip rooms).Pairwise fun a b => a.1.offset ≤ b.1.offset ∧
      b.1.offset + a.2.offset ≤ b.2.offset + a.1.offset := by
  induction held generalizing start start' with
  | nil => exact .nil
  | @cons p r items rooms head tail ih =>
    obtain ⟨rfl, joined⟩ := joined
    obtain ⟨rfl, adjoined⟩ := adjoined
    have size : p.size ≤ r.length := head.2 p.offset
    refine .cons (fun b mem => ?_) (ih joined adjoined)
    have := (joined.spread adjoined tail).2 b mem
    dsimp only
    omega

theorem isShort_of_le {d d' : Int} (h : isShort d' = true) (near : 0 ≤ d ∧ d ≤ d' ∨ d' ≤ d ∧ d ≤ 0) :
    isShort d = true := by
  simp only [isShort, Bool.and_eq_true, decide_eq_true_eq] at h ⊢
  omega

/-- A distance that is short between rooms is short between what is placed in them. -/
theorem Contiguous.isShort (joined : Contiguous start items stop)
    (adjoined : Adjoin start' rooms stop')
    (held : List.Forall₂ (fun p r => r.Takes p.toSized) items rooms) {a b : Placed × Room}
    (ha : a ∈ items.zip rooms) (hb : b ∈ items.zip rooms)
    (short : Layout.isShort ((b.2.offset : Int) - a.2.offset) = true) :
    Layout.isShort ((b.1.offset : Int) - a.1.offset) = true := by
  have near : ∀ a ∈ items.zip rooms, ∀ b ∈ items.zip rooms,
      Layout.isShort ((b.2.offset : Int) - a.2.offset) = true →
        Layout.isShort ((b.1.offset : Int) - a.1.offset) = true :=
    List.Pairwise.forall_of_forall_of_flip (fun a _ short => isShort_of_le short (by omega))
      ((joined.apart adjoined held).imp fun apart short => isShort_of_le short (by omega))
      ((joined.apart adjoined held).imp fun apart short => isShort_of_le short (by omega))
  exact near a ha b hb short

/-! ## Rounds -/

theorem mem_zip_of_held {α β : Type} {R : α → β → Prop} {as : List α} {bs : List β}
    (held : List.Forall₂ R as bs) : List.Forall₂ (fun a b => (a, b) ∈ as.zip bs) as bs :=
  List.forall₂_iff_zip.2 ⟨held.length_eq, id⟩

/-- An item that is widened has the room for it. -/
theorem takes_of_widens {l : Layout} (joined : Contiguous 0 l.items l.size)
    (labels : l.labels = labelOffsets l.items)
    (once : ((l.items.map (·.item)).filterMap Item.label?).Nodup) (adjoined : Adjoin 0 rooms stop)
    (ample : Ample rooms) (held : List.Forall₂ (fun p r => r.Takes p.toSized) l.items rooms)
    {p : Placed} {r : Room} (mem : (p, r) ∈ l.items.zip rooms) {w : Bool}
    (h : l.widens p = .ok w) : r.Takes { p.toSized with wide := p.wide || w } := by
  have own : r.Takes p.toSized := (List.forall₂_iff_zip.1 held).2 mem
  cases w with
  | false => rwa [Bool.or_false]
  | true =>
    obtain ⟨op, target, d, jump, -, distance, far, -⟩ := widens_eq_true h
    obtain ⟨o, found, rfl⟩ := distance_eq_ok.1 distance
    have found := labels_of_offsetOf found
    rw [labels, labelOffsets_eq_some_iff once] at found
    obtain ⟨q, placed, label, rfl⟩ := found
    obtain ⟨r', -, mem'⟩ := forall₂_mem_left (mem_zip_of_held held) placed
    have label' : r'.item = .label target := ((List.forall₂_iff_zip.1 held).2 mem').1 ▸ label
    have jump' : r.item = .op ⟨op, .branch target⟩ := own.1 ▸ jump
    rcases ample.reaches r (List.of_mem_zip mem).2 op target jump' r' (List.of_mem_zip mem').2 label'
      with short | wide
    · exact absurd (joined.isShort adjoined held mem mem' short) (Bool.eq_false_iff.1 far)
    · refine ⟨own.1, fun offset => ?_⟩
      rw [Bool.or_true]
      simp only [Sized.size, jump, Instruction.size, if_true]
      exact wide

theorem takes_of_widen {l : Layout} (joined : Contiguous 0 l.items l.size)
    (labels : l.labels = labelOffsets l.items)
    (once : ((l.items.map (·.item)).filterMap Item.label?).Nodup) (adjoined : Adjoin 0 rooms stop)
    (ample : Ample rooms) (held : List.Forall₂ (fun p r => r.Takes p.toSized) l.items rooms)
    {sized : List Sized} {changed : Bool} (h : l.widen = .ok (sized, changed)) :
    List.Forall₂ (fun s r => r.Takes s) sized rooms := by
  obtain ⟨widened, each, h⟩ := except_bind_eq_ok.1 h
  rw [except_mapM_eq_ok] at each
  cases except_pure_eq_ok.1 h
  rw [List.forall₂_map_left_iff]
  refine forall₂_trans each.flip (mem_zip_of_held held) fun sw p r step mem => ?_
  obtain ⟨w, widens, step⟩ := except_bind_eq_ok.1 step
  cases except_pure_eq_ok.1 step
  exact takes_of_widens joined labels once adjoined ample held mem widens

/-- What is in its rooms before the rounds is in them afterwards. -/
theorem takes_of_settle {fuel : Nat} {code : List Sized} {l : Layout}
    (h : settle fuel code = .ok l)
    (once : ((code.map (·.item)).filterMap Item.label?).Nodup) (adjoined : Adjoin 0 rooms stop)
    (ample : Ample rooms) (held : List.Forall₂ (fun s r => r.Takes s) code rooms) :
    List.Forall₂ (fun p r => r.Takes p.toSized) l.items rooms := by
  have own {sized : List Sized} (held : List.Forall₂ (fun s r => r.Takes s) sized rooms) :
      sized.map (·.item) = rooms.map (·.item) :=
    (map_eq_of_forall₂ held fun s r takes => takes.1.symm).symm
  have placed {sized : List Sized} (held : List.Forall₂ (fun s r => r.Takes s) sized rooms) :
      List.Forall₂ (fun p r => r.Takes p.toSized) (ofSized sized).items rooms := by
    rwa [← (contiguous_ofSized sized).1, List.forall₂_map_left_iff] at held
  refine settle_keeps (I := fun sized => List.Forall₂ (fun s r => r.Takes s) sized rooms)
    (P := fun l => List.Forall₂ (fun p r => r.Takes p.toSized) l.items rooms)
    (fun before after kept round => ?_) (fun before after kept _ _ => placed kept) h held
  have same : (ofSized before).items.map (·.item) = code.map (·.item) :=
    (items_ofSized before).trans ((own kept).trans (own held).symm)
  exact takes_of_widen (contiguous_ofSized before).2 rfl (same ▸ once) adjoined ample (placed kept)
    round

/-- Each item of the layout takes no more than its room. -/
theorem takes_of_ofCode {code : List Item} {l : Layout} (h : ofCode code = .ok l)
    (once : (code.filterMap Item.label?).Nodup) (switchless : Switchless code)
    (adjoined : Adjoin 0 rooms stop) (ample : Ample rooms) (same : rooms.map (·.item) = code) :
    List.Forall₂ (fun p r => r.Takes p.toSized) l.items rooms := by
  refine takes_of_settle h ?_ adjoined ample ?_
  · rwa [List.map_map, show (fun s : Sized => s.item) ∘ (fun i => { item := i }) = id from rfl,
      List.map_id]
  · subst same
    rw [List.map_map, List.forall₂_map_left_iff, List.forall₂_same]
    refine fun r mem => ⟨rfl, fun offset => ?_⟩
    have plain : ∀ i, r.item = .op i → i.isSwitch = false := fun i is_op =>
      switchless i (is_op ▸ List.mem_map_of_mem mem)
    show Sized.size offset { item := r.item } ≤ r.length
    rw [Sized.size_of_isSwitch plain offset r.offset]
    unfold Sized.size
    cases item : r.item with
    | label l => exact Nat.zero_le _
    | op i => exact ample.fits r mem i item

/-- Items that take no more than their rooms, which take no more as a whole, are where these are. -/
theorem Contiguous.offset_eq (joined : Contiguous start items stop)
    (adjoined : Adjoin start' rooms stop')
    (held : List.Forall₂ (fun p r => r.Takes p.toSized) items rooms) (first : start ≤ start')
    (last : stop' ≤ stop) :
    List.Forall₂ (fun p r => p.item = r.item ∧ p.offset = r.offset) items rooms := by
  induction held generalizing start start' with
  | nil => exact .nil
  | @cons p r items rooms head tail ih =>
    obtain ⟨total, -⟩ := joined.spread adjoined (.cons head tail)
    obtain ⟨rfl, joined⟩ := joined
    obtain ⟨rfl, adjoined⟩ := adjoined
    have size : p.size ≤ r.length := head.2 p.offset
    exact .cons ⟨head.1, by omega⟩ (ih joined adjoined (by omega))

/-- Rooms that take no more than the layout are where the layout puts the items. -/
theorem offset_of_ofCode {code : List Item} {l : Layout} (h : ofCode code = .ok l)
    (once : (code.filterMap Item.label?).Nodup) (switchless : Switchless code)
    (adjoined : Adjoin 0 rooms stop) (ample : Ample rooms) (same : rooms.map (·.item) = code)
    (tight : stop ≤ l.size) :
    List.Forall₂ (fun p r => p.item = r.item ∧ p.offset = r.offset) l.items rooms :=
  (settled_of_ofCode h).contiguous.offset_eq adjoined
    (takes_of_ofCode h once switchless adjoined ample same) (Nat.le_refl 0) tight

end Layout

end Weft
