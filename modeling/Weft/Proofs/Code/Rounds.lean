import Weft.Proofs.Code.RoundTrip
import Weft.Proofs.Code.Writing

/-!
# Rounds of layout

A layout is looked for in rounds. Each places the code with the widths found so far and widens the
jumps that do not reach; the first that widens nothing is the last. So there is at most one round
more than there are jumps. Whatever is widened, nothing moves back: an item may get smaller only
where it is a switch that stands later, and where a switch ends depends on its place through the
next multiple of four. In the layout that comes of it, what it says of offsets, widths and distances
agrees with what is written.
-/

namespace Weft

namespace Layout

/-! ## Offsets -/

/-- The offset of each item if the first is at `start`, and behind them that of the end. -/
def runningOffsets : Nat → List Sized → List Nat
  | start, [] => [start]
  | start, s :: rest => start :: runningOffsets (start + s.size start) rest

theorem Contiguous.runningOffsets_eq {items : List Placed} {start stop : Nat}
    (joined : Contiguous start items stop) :
    runningOffsets start (items.map (·.toSized)) = items.map (·.offset) ++ [stop] := by
  induction items generalizing start with
  | nil => exact congrArg ([·]) joined
  | cons p rest ih =>
    obtain ⟨rfl, joined⟩ := joined
    exact congrArg (p.offset :: ·) (ih joined)

end Layout

/-- The end of an item moves no further back than its start, also where it is a switch, whose
padding may get shorter: what comes behind the padding starts at a multiple of four. -/
theorem Sized.add_size_mono {s t : Sized} (same : s.item = t.item)
    (wider : s.wide = true → t.wide = true) {o o' : Nat} (later : o ≤ o') :
    o + s.size o ≤ o' + t.size o' := by
  obtain ⟨item, wide⟩ := s
  obtain ⟨item', wide'⟩ := t
  obtain rfl : item = item' := same
  cases item with
  | label l => exact later
  | op i =>
    obtain ⟨op, operand⟩ := i
    cases operand with
    | branch target =>
      show o + (if wide then 5 else 3) ≤ o' + if wide' then 5 else 3
      cases wide with
      | false => cases wide' <;> simp only [if_true, Bool.false_eq_true, if_false] <;> omega
      | true =>
        obtain rfl : wide' = true := wider rfl
        omega
    | tableSwitch default low targets =>
      simp only [Sized.size, Instruction.size, switchPadding]
      omega
    | lookupSwitch default pairs =>
      simp only [Sized.size, Instruction.size, switchPadding]
      omega
    | _ => exact Nat.add_le_add_right later _

namespace Layout

/-- The second is the same code, where some more of the jumps are wide. -/
def Promotes : List Sized → List Sized → Prop :=
  List.Forall₂ fun s t => s.item = t.item ∧ (s.wide = true → t.wide = true)

namespace Promotes

variable {code sized sized' : List Sized}

theorem refl (code : List Sized) : Promotes code code := List.forall₂_same.2 fun _ _ => ⟨rfl, id⟩

theorem trans (h : Promotes code sized) (h' : Promotes sized sized') : Promotes code sized' :=
  forall₂_trans h h' fun _ _ _ first second =>
    ⟨first.1.trans second.1, second.2 ∘ first.2⟩

/-- Nothing moves to a place before its old one. -/
theorem runningOffsets_le (h : Promotes code sized) {start start' : Nat} (later : start ≤ start') :
    List.Forall₂ (· ≤ ·) (runningOffsets start code) (runningOffsets start' sized) := by
  induction h generalizing start start' with
  | nil => exact .cons later .nil
  | cons head _ ih => exact .cons later (ih (Sized.add_size_mono head.1 head.2 later))

end Promotes

theorem offsets_ofSized (code : List Sized) : (ofSized code).offsets = runningOffsets 0 code := by
  obtain ⟨same, joined⟩ := contiguous_ofSized code
  rw [offsets, ← joined.runningOffsets_eq, same]

/-! ## Rounds -/

/-- How rounds that begin with code of these widths end: after so many of them, and with what. -/
inductive Rounds : Nat → List Sized → Except Error Layout → Prop
  | large {code : List Sized} (tooBig : limit < (ofSized code).size) :
      Rounds 1 code (.error (.notSupported (.bodySize (ofSized code).size)))
  | refused {code : List Sized} {e : Error} (small : (ofSized code).size ≤ limit)
      (round : (ofSized code).widen = .error e) : Rounds 1 code (.error e)
  | done {code sized : List Sized} (small : (ofSized code).size ≤ limit)
      (round : (ofSized code).widen = .ok (sized, false)) : Rounds 1 code (.ok (ofSized code))
  | again {n : Nat} {code sized : List Sized} {r : Except Error Layout}
      (small : (ofSized code).size ≤ limit) (round : (ofSized code).widen = .ok (sized, true))
      (rest : Rounds n sized r) : Rounds (n + 1) code r

/-- A round changes nothing but widths, and those in one direction. -/
theorem promotes_of_widen {code sized : List Sized} {changed : Bool}
    (h : (ofSized code).widen = .ok (sized, changed)) : Promotes code sized := by
  obtain ⟨widened, each, result⟩ := except_bind_eq_ok.1 h
  cases except_pure_eq_ok.1 result
  rw [Promotes, ← (contiguous_ofSized code).1, List.forall₂_map_left_iff,
    List.forall₂_map_right_iff]
  refine (except_mapM_eq_ok.1 each).imp fun p sw step => ?_
  obtain ⟨w, -, same⟩ := except_bind_eq_ok.1 step
  cases except_pure_eq_ok.1 same
  exact ⟨rfl, fun wide => Bool.or_eq_true_iff.2 (.inl wide)⟩

namespace Rounds

variable {n n' : Nat} {code : List Sized} {r r' : Except Error Layout}

/-- Rounds end in one way. -/
theorem unique (h : Rounds n code r) (h' : Rounds n' code r') : n = n' ∧ r = r' := by
  induction h generalizing n' r' with
  | large tooBig =>
    cases h' with
    | large => exact ⟨rfl, rfl⟩
    | refused small | done small | again small => exact absurd tooBig (Nat.not_lt.2 small)
  | refused small round =>
    cases h' with
    | large tooBig => exact absurd tooBig (Nat.not_lt.2 small)
    | refused _ round' => cases round.symm.trans round'; exact ⟨rfl, rfl⟩
    | done _ round' | again _ round' => cases round.symm.trans round'
  | done small round =>
    cases h' with
    | large tooBig => exact absurd tooBig (Nat.not_lt.2 small)
    | done => exact ⟨rfl, rfl⟩
    | refused _ round' | again _ round' => cases round.symm.trans round'
  | again small round _ ih =>
    cases h' with
    | large tooBig => exact absurd tooBig (Nat.not_lt.2 small)
    | refused _ round' | done _ round' => cases round.symm.trans round'
    | again _ round' rest =>
      cases round.symm.trans round'
      exact (ih rest).imp_left (congrArg (· + 1))

/-- In the layout that rounds end with nothing stands before its place in the first round. -/
theorem promotes (h : Rounds n code r) {l : Layout} (ok : r = .ok l) :
    Promotes code (l.items.map (·.toSized)) := by
  induction h with
  | large | refused => cases ok
  | @done code =>
    cases ok
    rw [(contiguous_ofSized code).1]
    exact .refl code
  | again _ round _ ih => exact (promotes_of_widen round).trans (ih ok)

end Rounds

/-- Each round but the last leaves less to widen. -/
theorem rounds_settle {fuel : Nat} {code : List Sized} (enough : code.countP isPending < fuel) :
    ∃ n ≤ code.countP isPending + 1, Rounds n code (settle fuel code) := by
  refine settle_induct (M := fun code r => ∃ n ≤ code.countP isPending + 1, Rounds n code r)
    ?_ ?_ ?_ ?_ enough
  · exact fun code tooBig => ⟨1, Nat.le_add_left 1 _, .large tooBig⟩
  · exact fun code e small round => ⟨1, Nat.le_add_left 1 _, .refused small round⟩
  · exact fun code sized small round => ⟨1, Nat.le_add_left 1 _, .done small round⟩
  · rintro code sized r small round fewer ⟨n, few, rest⟩
    exact ⟨n + 1, by omega, .again small round rest⟩

theorem rounds_ofCode (code : List Item) :
    ∃ n ≤ code.countP isWidenable + 1, Rounds n (code.map ({ item := · })) (ofCode code) := by
  rw [← countP_isPending_start]
  refine rounds_settle ?_
  rw [countP_isPending_start]
  exact Nat.lt_succ_self _

/-! ## What a layout says -/

theorem isWidenable_iff {item : Item} :
    isWidenable item = true ↔ ∃ op x, item = .op ⟨op, .branch x⟩ ∧ (op = .goto ∨ op = .jsr) := by
  constructor
  · intro h
    cases item with
    | label l => cases h
    | op i =>
      obtain ⟨op, operand⟩ := i
      cases operand with
      | branch x => exact ⟨op, x, rfl, Opcode.eq_of_canWiden h⟩
      | _ => cases h
  · rintro ⟨op, x, rfl, rfl | rfl⟩
    · rfl
    · rfl

/-- The boundaries of an item are two offsets, one behind the other. -/
theorem Contiguous.spans {items : List Placed} {start stop i : Nat} {p : Placed}
    (joined : Contiguous start items stop) (at_i : items[i]? = some p) :
    (items.map (·.offset) ++ [stop])[i]? = some p.offset ∧
      (items.map (·.offset) ++ [stop])[i + 1]? = some (p.offset + p.size) := by
  induction items generalizing start i with
  | nil => cases at_i
  | cons q rest ih =>
    obtain ⟨rfl, joined⟩ := joined
    cases i with
    | succ i => exact ih joined at_i
    | zero =>
      obtain rfl : q = p := Option.some.inj at_i
      refine ⟨rfl, ?_⟩
      cases rest with
      | nil => exact congrArg some joined.symm
      | cons r rest => exact congrArg some joined.1

/-- An instruction is written exactly if its targets are placed, and its keys have room. -/
theorem exists_instructionBytes_iff {l : Layout} {i : Instruction} {offset : Nat} {wide : Bool} :
    (∃ bs, l.instructionBytes offset wide i = .ok bs) ↔
      (∀ x ∈ i.targets, ∃ o, l.offsetOf x = .ok o) ∧ i.Ranged := by
  refine ⟨fun ⟨bs, written⟩ => ⟨fun x => offsetOf_of_instructionBytes written, ?_⟩,
    fun ⟨placed, ranged⟩ => exists_instructionBytes placed ranged offset wide⟩
  rintro default low targets switch
  obtain ⟨op, operand⟩ := i
  obtain rfl : operand = .tableSwitch default low targets := switch
  obtain ⟨table, made, -⟩ := except_map_eq_ok.1 written
  obtain ⟨-, -, -, least, most, -⟩ := tableBytes_eq_ok.1 made
  exact ⟨least, most⟩

/-- What the layout says of the code agrees with the widths that it gives, and with what is
written. -/
structure Consistent (code : List Item) (l : Layout) : Prop where
  items : l.items.map (·.item) = code
  /-- Offsets are sums of sizes, those of the widths that the layout has. -/
  offsets : l.offsets = runningOffsets 0 (l.items.map (·.toSized))
  labels : ∀ x, l.labels[x]? = lastOffset? x l.items
  reaches : ∀ p ∈ l.items, ∀ op x, p.item = .op ⟨op, .branch x⟩ → p.wide = false →
    ∃ d, l.distance p.offset x = .ok d ∧ -32768 ≤ d ∧ d ≤ 32767
  wide : ∀ p ∈ l.items, p.wide = true →
    ∃ op x, p.item = .op ⟨op, .branch x⟩ ∧ (op = .goto ∨ op = .jsr)
  small : l.size ≤ 65535
  /-- What is written of an item takes the room up to the next offset. -/
  spans : ∀ (i : Nat) p, l.items[i]? = some p → l.offsets[i]? = some p.offset ∧
    ∃ next, l.offsets[i + 1]? = some next ∧ p.offset ≤ next ∧
      ∀ bs, l.itemBytes p = .ok bs → bs.length = next - p.offset
  /-- Only the targets of switches, and their keys, can keep an item from being written. -/
  written : ∀ p ∈ l.items, (∃ bs, l.itemBytes p = .ok bs) ↔
    ∀ i, p.item = .op i → (∀ x ∈ i.targets, .label x ∈ code) ∧ i.Ranged

theorem Settled.consistent {code : List Item} {l : Layout} (s : Settled code l) :
    Consistent code l where
  items := s.items
  offsets := s.contiguous.runningOffsets_eq.symm
  labels x := by rw [s.labels, labelOffsets_getElem?]
  reaches p mem op x branch narrow := by
    obtain ⟨d, found, short⟩ := reaches_of_widens (s.reaches p mem) branch narrow
    simp only [isShort, Bool.and_eq_true, decide_eq_true_eq] at short
    exact ⟨d, found, short⟩
  wide p mem wide := isWidenable_iff.1 (s.wide p mem wide)
  small := s.bounded
  spans i p at_i := by
    obtain ⟨here, next⟩ := s.contiguous.spans at_i
    refine ⟨here, _, next, Nat.le_add_right _ _, fun bs written => ?_⟩
    rw [length_itemBytes written, Nat.add_sub_cancel_left]
  written p mem := by
    have placed (x : Label) : (∃ o, l.offsetOf x = .ok o) ↔ .label x ∈ code := by
      refine ⟨?_, fun listed => offsetOf_of_label s.labels ?_⟩
      · rintro ⟨o, found⟩
        have last := labels_of_offsetOf found
        rw [s.labels, labelOffsets_getElem?] at last
        exact s.items ▸ isSome_lastOffset?_iff.1 (Option.isSome_iff_exists.2 ⟨o, last⟩)
      · exact mem_filterMap_label?.2 (s.items.symm ▸ listed)
    cases item : p.item with
    | label x => simp [itemBytes_label item]
    | op i =>
      rw [itemBytes_op item, exists_instructionBytes_iff]
      simp only [placed, Item.op.injEq, forall_eq']

/-- Rounds of layout come to an end, after at most one more than there are jumps. Code that places
the labels of its branches is then laid out consistently, or is refused since a branch does not
reach or since there are too many bytes. Whatever is widened, no item moves back. -/
theorem ofCode_consistent {code : List Item} (placed : PlacesBranches code) :
    (∃ n, Rounds n (code.map ({ item := · })) (ofCode code)) ∧
    (∀ n r, Rounds n (code.map ({ item := · })) r →
      n ≤ code.countP isWidenable + 1 ∧ r = ofCode code) ∧
    ((∃ l, ofCode code = .ok l ∧ Consistent code l) ∨
      ∃ e, ofCode code = .error e ∧ Refuses e) ∧
    ∀ sized sized', Promotes sized sized' →
      List.Forall₂ (· ≤ ·) (ofSized sized).offsets (ofSized sized').offsets := by
  obtain ⟨n, few, rounds⟩ := rounds_ofCode code
  refine ⟨⟨n, rounds⟩, fun n' r rounds' => ?_, ?_, fun sized sized' promotes => ?_⟩
  · obtain ⟨rfl, rfl⟩ := rounds.unique rounds'
    exact ⟨few, rfl⟩
  · rcases ofCode_cases placed with ⟨l, laid⟩ | refused
    · exact .inl ⟨l, laid, (settled_of_ofCode laid).consistent⟩
    · exact .inr refused
  · rw [offsets_ofSized, offsets_ofSized]
    exact promotes.runningOffsets_le (Nat.le_refl 0)

/-- A jump over a switch of 8190 keys, which is too far for sixteen bits. -/
def overTable (wide : Bool) : List Sized :=
  [⟨.op ⟨.goto, .branch ⟨0⟩⟩, wide⟩,
    ⟨.op ⟨⟨0xAA, Nat.le_of_ble_eq_true rfl⟩, .tableSwitch ⟨0⟩ 0 (List.replicate 8190 ⟨0⟩)⟩, false⟩,
    ⟨.label ⟨0⟩, false⟩, ⟨.op ⟨.voidReturn, .none⟩, false⟩]

theorem ofSized_overTable (wide : Bool) :
    (ofSized (overTable wide)).items = (overTable wide).zipWith Placed.mk
      (if wide then [0, 5, 32780, 32780] else [0, 3, 32776, 32776]) ∧
    (ofSized (overTable wide)).size = if wide then 32781 else 32777 := by
  simp only [ofSized, place, place.go, overTable, Sized.size, Instruction.size, switchPadding,
    List.length_replicate]
  cases wide <;> exact ⟨rfl, rfl⟩

theorem widen_overTable (wide : Bool) :
    (ofSized (overTable wide)).widen = .ok (overTable true, !wide) := by
  rw [widen, (ofSized_overTable wide).1]
  cases wide with
  | true => rfl
  | false =>
    have distance : (ofSized (overTable false)).distance 0 ⟨0⟩ = .ok 32776 := by
      refine distance_eq_ok.2 ⟨32776, ?_, rfl⟩
      rw [offsetOf, labels_ofSized, labelOffsets_getElem?, (ofSized_overTable false).1]
      rfl
    have far : (ofSized (overTable false)).widens ⟨⟨.op ⟨.goto, .branch ⟨0⟩⟩, false⟩, 0⟩ =
        .ok true := by
      change (do let d ← (ofSized (overTable false)).distance 0 ⟨0⟩; _) = _
      rw [distance]
      rfl
    refine except_bind_eq_ok.2 ⟨(overTable false).zip [true, false, false, false],
      except_mapM_eq_ok.2 (.cons ?_ (.cons rfl (.cons rfl (.cons rfl .nil)))), rfl⟩
    exact except_bind_eq_ok.2 ⟨true, far, rfl⟩

theorem rounds_overTable : Rounds 2 (overTable false) (.ok (ofSized (overTable true))) :=
  .again (by rw [(ofSized_overTable _).2]; decide) (widen_overTable false)
    (.done (by rw [(ofSized_overTable _).2]; decide) (widen_overTable true))

theorem ofCode_consistent_overTable : PlacesBranches ((overTable false).map (·.item)) ∧
    ((overTable false).map (·.item)).countP isWidenable = 1 ∧
    ofCode ((overTable false).map (·.item)) = .ok (ofSized (overTable true)) ∧
    (ofSized (overTable true)).offsets = [0, 5, 32780, 32780, 32781] ∧
    Consistent ((overTable false).map (·.item)) (ofSized (overTable true)) := by
  have placed : PlacesBranches ((overTable false).map (·.item)) := by
    intro op x jump
    rcases jump with _ | ⟨_, _ | ⟨_, _ | ⟨_, _ | ⟨_, ⟨⟩⟩⟩⟩⟩
    exact .tail _ (.tail _ (.head _))
  obtain ⟨-, all, laid, -⟩ := ofCode_consistent placed
  have same := (all 2 _ rounds_overTable).2
  refine ⟨placed, rfl, same.symm, ?_, ?_⟩
  · rw [offsets, (ofSized_overTable true).1, (ofSized_overTable true).2]
    rfl
  rw [← same] at laid
  obtain ⟨l, ⟨⟩, consistent⟩ | ⟨e, failed, -⟩ := laid
  · exact consistent
  · cases failed

end Layout

end Weft
