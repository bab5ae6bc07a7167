import Weft.Proofs.Code.Grafting
import Weft.Proofs.Code.Rooms

/-!
# What is written

Rounds of layout come to an end, since each of them but the last leaves less to widen. A body that
places every label that it refers to is then written, or refused for one of two reasons: a branch
without a wide form does not reach, or there are too many bytes.
-/

namespace Weft

namespace Layout

/-! ## Rounds -/

/-- The item may still be widened. -/
def isPending (s : Sized) : Bool := isWidenable s.item && !s.wide

theorem isPending_of_widens {l : Layout} {p : Placed} (h : l.widens p = .ok true) :
    isPending p.toSized = true := by
  obtain ⟨op, target, d, -, narrow, -⟩ := widens_eq_true h
  rw [isPending, widenable_of_widens h, narrow]
  rfl

/-- A round that changes anything leaves less to widen. -/
theorem countP_isPending_of_widen {l : Layout} {sized : List Sized}
    (h : l.widen = .ok (sized, true)) :
    sized.countP isPending < (l.items.map (·.toSized)).countP isPending := by
  obtain ⟨widened, each, result⟩ := except_bind_eq_ok.1 h
  obtain ⟨rfl, changed⟩ := Prod.mk.inj (except_pure_eq_ok.1 result)
  rw [except_mapM_eq_ok] at each
  -- said of all rounds: in the induction the items that follow need not change
  suffices fewer :
      (widened.map fun sw => { sw.1 with wide := sw.1.wide || sw.2 }).countP isPending +
        (widened.any (·.2)).toNat ≤ (l.items.map (·.toSized)).countP isPending by
    rw [changed] at fewer
    exact fewer
  clear h result changed
  generalize l.items = items at each
  induction each with
  | nil => exact Nat.le_refl 0
  | @cons p sw items widened head _ ih =>
    obtain ⟨w, widens, same⟩ := except_bind_eq_ok.1 head
    obtain rfl := except_pure_eq_ok.1 same
    rw [List.map_cons, List.map_cons, List.countP_cons, List.countP_cons, List.any_cons]
    cases w with
    | false =>
      have same : isPending { p.toSized with wide := p.wide || false } = isPending p.toSized := by
        rw [Bool.or_false]
      rw [same, Bool.false_or]
      omega
    | true =>
      have done : isPending { p.toSized with wide := p.wide || true } = false := by
        rw [isPending, Bool.or_true, Bool.not_true, Bool.and_false]
      have one := Bool.toNat_le (widened.any (·.2))
      rw [done, isPending_of_widens widens, if_pos rfl, if_neg Bool.false_ne_true, Bool.true_or,
        Bool.toNat_true]
      omega

/-- What holds where rounds end, and before a round that changes anything if it holds behind that,
holds of what the rounds come to: each of them but the last leaves less to widen. -/
theorem settle_induct {M : List Sized → Except Error Layout → Prop}
    (large : ∀ code, limit < (ofSized code).size →
      M code (.error (.notSupported (.bodySize (ofSized code).size))))
    (refused : ∀ code e, (ofSized code).size ≤ limit → (ofSized code).widen = .error e →
      M code (.error e))
    (done : ∀ code sized, (ofSized code).size ≤ limit →
      (ofSized code).widen = .ok (sized, false) → M code (.ok (ofSized code)))
    (again : ∀ code sized r, (ofSized code).size ≤ limit →
      (ofSized code).widen = .ok (sized, true) →
      sized.countP isPending < code.countP isPending → M sized r → M code r)
    {fuel : Nat} {code : List Sized} (enough : code.countP isPending < fuel) :
    M code (settle fuel code) := by
  induction fuel generalizing code with
  | zero => cases enough
  | succ fuel ih =>
    simp only [settle]
    by_cases tooBig : limit < (ofSized code).size
    · rw [if_pos tooBig]
      exact large code tooBig
    rw [if_neg tooBig]
    have small := Nat.le_of_not_lt tooBig
    cases round : (ofSized code).widen with
    | error e => exact refused code e small round
    | ok widened =>
      obtain ⟨sized, changed⟩ := widened
      cases changed with
      | false => exact done code sized small round
      | true =>
        have fewer := countP_isPending_of_widen round
        rw [(contiguous_ofSized code).1] at fewer
        exact again code sized _ small round fewer
          (ih (Nat.lt_of_lt_of_le fewer (Nat.le_of_lt_succ enough)))

/-- Nothing is wide at the start, so that each jump can be widened. -/
theorem countP_isPending_start (code : List Item) :
    (code.map ({ item := · })).countP isPending = code.countP isWidenable := by
  rw [List.countP_map]
  exact List.countP_congr fun item _ => by simp [isPending]

section Rule

variable {I : List Sized → Prop} {P : Except Error Layout → Prop}
  (large : ∀ code, I code → limit < (ofSized code).size →
    P (.error (.notSupported (.bodySize (ofSized code).size))))
  (refused : ∀ code e, I code → (ofSized code).widen = .error e → P (.error e))
  (again : ∀ code sized, I code → (ofSized code).widen = .ok (sized, true) → I sized)
  (done : ∀ code sized, I code → (ofSized code).widen = .ok (sized, false) →
    P (.ok (ofSized code)))

include large refused again done

/-- What one round keeps holds when the rounds are over. -/
theorem ofCode_rule {code : List Item} (start : I (code.map ({ item := · }))) :
    P (ofCode code) := by
  refine settle_induct (M := fun code r => I code → P r) ?_ ?_ ?_ ?_ ?_ start
  · exact fun code tooBig start => large code start tooBig
  · exact fun code e _ round start => refused code e start round
  · exact fun code sized _ round start => done code sized start round
  · exact fun code sized r _ round _ rest start => rest (again code sized start round)
  · rw [countP_isPending_start]
    exact Nat.lt_succ_self _

end Rule

/-! ## Refusals -/

/-- The layout is refused since a branch does not reach or since there are too many bytes. -/
inductive Refuses : Error → Prop
  | branchSpan (op : Opcode) (distance : Int) : Refuses (.notSupported (.branchSpan op distance))
  | bodySize (bytes : Nat) : Refuses (.notSupported (.bodySize bytes))

/-- All jumps are to labels that are placed. -/
def Places (code : List Item) : Prop :=
  ∀ x ∈ (code.filterMap Item.instruction?).flatMap Instruction.targets,
    x ∈ code.filterMap Item.label?

/-- All branches other than switches are to labels that are placed. -/
def PlacesBranches (code : List Item) : Prop :=
  ∀ op x, .op ⟨op, .branch x⟩ ∈ code → .label x ∈ code

theorem Places.branches {code : List Item} (h : Places code) : PlacesBranches code := by
  intro op x jump
  refine mem_filterMap_label?.1 (h x (List.mem_flatMap.2 ⟨⟨op, .branch x⟩, ?_, .head _⟩))
  exact List.mem_filterMap.2 ⟨_, jump, rfl⟩

theorem offsetOf_of_label {items : List Placed} {x : Label} {l : Layout}
    (labels : l.labels = labelOffsets items)
    (mem : x ∈ (items.map (·.item)).filterMap Item.label?) : ∃ o, l.offsetOf x = .ok o := by
  obtain ⟨o, last⟩ := Option.isSome_iff_exists.1
    (isSome_lastOffset?_iff.2 (mem_filterMap_label?.1 mem))
  exact ⟨o, by rw [offsetOf, labels, labelOffsets_getElem?, last]⟩

theorem except_mapM_cases {ε α β : Type} {f : α → Except ε β} {E : ε → Prop} {as : List α}
    (each : ∀ a ∈ as, (∃ b, f a = .ok b) ∨ ∃ e, f a = .error e ∧ E e) :
    (∃ bs, as.mapM f = .ok bs) ∨ ∃ e, as.mapM f = .error e ∧ E e := by
  induction as with
  | nil => exact .inl ⟨[], rfl⟩
  | cons a as ih =>
    obtain ⟨first, each⟩ := List.forall_mem_cons.1 each
    rw [List.mapM_cons]
    rcases first with ⟨b, made⟩ | ⟨e, failed, known⟩
    · rw [made]
      rcases ih each with ⟨bs, made⟩ | ⟨e, failed, known⟩
      · exact .inl ⟨b :: bs, by rw [made]; rfl⟩
      · exact .inr ⟨e, by rw [failed]; rfl, known⟩
    · exact .inr ⟨e, by rw [failed]; rfl, known⟩

theorem labels_ofSized (code : List Sized) :
    (ofSized code).labels = labelOffsets (ofSized code).items := rfl

/-- A round on code that places its labels goes well, unless a branch does not reach. -/
theorem widens_cases {l : Layout} {p : Placed}
    (placed : ∀ op target, p.item = .op ⟨op, .branch target⟩ → ∃ o, l.offsetOf target = .ok o) :
    (∃ w, l.widens p = .ok w) ∨ ∃ e, l.widens p = .error e ∧ Refuses e := by
  unfold widens
  cases narrow : p.narrowBranch? with
  | none => exact .inl ⟨false, rfl⟩
  | some jump =>
    obtain ⟨op, target⟩ := jump
    obtain ⟨o, found⟩ := placed op target (narrowBranch?_eq_some.1 narrow).1
    have distance : l.distance p.offset target = .ok ((o : Int) - p.offset) :=
      distance_eq_ok.2 ⟨o, found, rfl⟩
    simp only [distance]
    by_cases short : isShort ((o : Int) - p.offset) = true
    · exact .inl ⟨false, if_pos short⟩
    by_cases can : canWiden op = true
    · exact .inl ⟨true, (if_neg short).trans (if_pos can)⟩
    · exact .inr ⟨_, (if_neg short).trans (if_neg can), .branchSpan op _⟩

/-- Code that places the labels of its branches is laid out or refused. -/
theorem ofCode_cases {code : List Item} (placed : PlacesBranches code) :
    (∃ l, ofCode code = .ok l) ∨ ∃ e, ofCode code = .error e ∧ Refuses e := by
  -- the rounds keep the items, and mark none as wide that has no wide form
  refine ofCode_rule (I := fun sized => sized.map (·.item) = code ∧
      ∀ s ∈ sized, s.wide = true → isWidenable s.item = true)
    (P := fun r => (∃ l, r = .ok l) ∨ ∃ e, r = .error e ∧ Refuses e) ?_ ?_ ?_ ?_ ?_
  · exact fun sized _ _ => .inr ⟨_, rfl, .bodySize _⟩
  · rintro sized e ⟨same, -⟩ failed
    have same := (items_ofSized sized).trans same
    have each : ∀ p ∈ (ofSized sized).items,
        (∃ sw, (do return (p.toSized, ← (ofSized sized).widens p) : Except Error _) = .ok sw) ∨
          ∃ e, (do return (p.toSized, ← (ofSized sized).widens p) : Except Error _) = .error e ∧
            Refuses e := by
      intro p mem
      rcases widens_cases (l := ofSized sized) (p := p) fun op target jump => by
          refine offsetOf_of_label (labels_ofSized sized) (mem_filterMap_label?.2 ?_)
          rw [same]
          exact placed op target (same ▸ jump ▸ List.mem_map_of_mem mem)
        with ⟨w, widens⟩ | ⟨e, refused, known⟩
      · exact .inl ⟨_, by rw [widens]; rfl⟩
      · exact .inr ⟨e, by rw [refused]; rfl, known⟩
    rcases except_mapM_cases each with ⟨widened, made⟩ | ⟨e', failed', known⟩
    · rw [widen, made] at failed
      cases failed
    · rw [widen, failed'] at failed
      cases failed
      exact .inr ⟨e, rfl, known⟩
  · rintro sized sized' ⟨same, sound⟩ round
    have placed := (contiguous_ofSized sized).1
    obtain ⟨kept, sound, -⟩ := widen_sound round fun p mem =>
      sound p.toSized (placed ▸ List.mem_map_of_mem mem)
    exact ⟨kept.trans ((items_ofSized sized).trans same), sound⟩
  · exact fun sized _ _ _ => .inl ⟨_, rfl⟩
  · refine ⟨?_, List.forall_mem_map.2 fun _ _ marked => absurd marked Bool.false_ne_true⟩
    rw [List.map_map]
    exact List.map_id _

/-! ## Bytes -/

theorem exists_distanceBytes {l : Layout} {x : Label} (found : ∃ o, l.offsetOf x = .ok o)
    (offset : Nat) : ∃ bs, l.distanceBytes offset x = .ok bs := by
  obtain ⟨o, found⟩ := found
  exact ⟨_, except_map_eq_ok.2 ⟨_, distance_eq_ok.2 ⟨o, found, rfl⟩, rfl⟩⟩

theorem exists_mapM {α β : Type} {f : α → Except Error β} {as : List α}
    (each : ∀ a ∈ as, ∃ b, f a = .ok b) : ∃ bs, as.mapM f = .ok bs := by
  obtain ⟨bs, made⟩ := exists_forall₂ each
  exact ⟨bs, except_mapM_eq_ok.2 made⟩

end Layout

/-- The greatest key of a `tableswitch` has thirty-two bits. -/
def Instruction.Ranged (i : Instruction) : Prop :=
  ∀ default low targets, i.operand = .tableSwitch default low targets →
    -2147483648 ≤ low.toInt + targets.length - 1 ∧ low.toInt + targets.length - 1 ≤ 2147483647

namespace Layout

variable {l : Layout}

/-- An instruction is written if its targets are placed. -/
theorem exists_instructionBytes {i : Instruction}
    (placed : ∀ x ∈ i.targets, ∃ o, l.offsetOf x = .ok o) (ranged : i.Ranged) (offset : Nat)
    (wide : Bool) : ∃ bs, l.instructionBytes offset wide i = .ok bs := by
  obtain ⟨op, operand⟩ := i
  unfold instructionBytes
  cases operand with
  | «local» index => dsimp only; split <;> exact ⟨_, rfl⟩
  | increment index delta => dsimp only; split <;> exact ⟨_, rfl⟩
  | constant index =>
    dsimp only
    split
    · split <;> exact ⟨_, rfl⟩
    · exact ⟨_, rfl⟩
  | branch target =>
    obtain ⟨o, found⟩ := placed target (.head _)
    have distance : l.distance offset target = .ok ((o : Int) - offset) :=
      distance_eq_ok.2 ⟨o, found, rfl⟩
    simp only [distance]
    cases wide <;> exact ⟨_, rfl⟩
  | tableSwitch default low targets =>
    obtain ⟨least, most⟩ := ranged default low targets rfl
    obtain ⟨first, otherwise⟩ := exists_distanceBytes (placed default (.head _)) offset
    obtain ⟨rest, each⟩ := exists_mapM (f := l.distanceBytes offset) fun x mem =>
      exists_distanceBytes (placed x (.tail _ mem)) offset
    have table := tableBytes_eq_ok.2 ⟨first, rest, otherwise, least, most, each, rfl⟩
    exact ⟨_, except_map_eq_ok.2 ⟨_, table, rfl⟩⟩
  | lookupSwitch default pairs =>
    obtain ⟨first, otherwise⟩ := exists_distanceBytes (placed default (.head _)) offset
    obtain ⟨rest, each⟩ := exists_mapM (f := fun p : Int32 × Label => do
        return Bytes.ofInt32 p.1.toInt ++ (← l.distanceBytes offset p.2)) fun p mem => by
      obtain ⟨bs, made⟩ := exists_distanceBytes
        (placed p.2 (.tail _ (List.mem_map_of_mem mem))) offset
      exact ⟨_, except_bind_eq_ok.2 ⟨bs, made, rfl⟩⟩
    have table := lookupBytes_eq_ok.2 ⟨first, rest, otherwise, each, rfl⟩
    exact ⟨_, except_map_eq_ok.2 ⟨_, table, rfl⟩⟩
  | _ => exact ⟨_, rfl⟩

theorem exists_pc {x : Label} (found : ∃ o, l.offsetOf x = .ok o) : ∃ pc, l.pc x = .ok pc := by
  obtain ⟨o, found⟩ := found
  exact ⟨_, except_map_eq_ok.2 ⟨o, found, rfl⟩⟩

/-- The code of a settled layout has as many bytes as the layout. -/
theorem Settled.length_bytes {code : List Item} (s : Settled code l) {bs : Bytes}
    (h : l.bytes = .ok bs) : bs.length = l.size := by
  obtain ⟨parts, written, rfl⟩ := except_map_eq_ok.1 h
  have stop := s.contiguous.stop_eq (except_mapM_eq_ok.1 written)
  rwa [Nat.zero_add] at stop

end Layout

/-! ## Bodies -/

namespace Body

/-- Everything that the body refers to is placed once, and the keys of its tables have room. -/
structure Complete (b : Body) : Prop where
  once : (b.code.filterMap Item.label?).Nodup
  placed : ∀ x ∈ b.mentions, x ∈ b.code.filterMap Item.label?
  ranged : ∀ i ∈ b.instructions, i.Ranged

variable {b : Body} {l : Layout} {x : Label}

theorem mem_mentions_of_target (mem : x ∈ b.instructions.flatMap Instruction.targets) :
    x ∈ b.mentions :=
  List.mem_append_right _ (List.mem_append_left _ mem)

theorem mem_mentions_of_handler {h : Handler} (listed : h ∈ b.handlers) (mem : x ∈ h.labels) :
    x ∈ b.mentions :=
  List.mem_append_right _ (List.mem_append_right _ (List.mem_append_left _
    (List.mem_flatMap.2 ⟨h, listed, mem⟩)))

theorem mem_mentions_of_line {line : Label × UInt16} (listed : line ∈ b.lines) :
    line.1 ∈ b.mentions :=
  List.mem_append_right _ (List.mem_append_right _ (List.mem_append_right _
    (List.mem_append_left _ (List.mem_map_of_mem listed))))

theorem mem_mentions_of_local {v : LocalRange} (listed : v ∈ b.locals)
    (mem : x ∈ [v.start, v.stop]) : x ∈ b.mentions :=
  List.mem_append_right _ (List.mem_append_right _ (List.mem_append_right _
    (List.mem_append_right _ (List.mem_flatMap.2 ⟨v, listed, mem⟩))))

section Tables

variable (found : ∀ x ∈ b.mentions, ∃ o, l.offsetOf x = .ok o)

include found

theorem exists_exceptionTable : ∃ entries, l.exceptionTable b.handlers = .ok entries := by
  obtain ⟨rows, made⟩ := Layout.exists_mapM (f := l.exceptionEntry?) fun h listed => by
    have pc := fun {x} (mem : x ∈ h.labels) =>
      Layout.exists_pc (found x (mem_mentions_of_handler listed mem))
    obtain ⟨start, at_start⟩ := pc (.head _)
    obtain ⟨stop, at_stop⟩ := pc (.tail _ (.head _))
    obtain ⟨target, at_target⟩ := pc (.tail _ (.tail _ (.head _)))
    unfold Layout.exceptionEntry?
    simp only [at_start, at_stop, at_target]
    by_cases covers : start < stop
    · exact ⟨_, if_pos covers⟩
    · exact ⟨_, if_neg covers⟩
  exact ⟨_, except_map_eq_ok.2 ⟨rows, made, rfl⟩⟩

theorem exists_lineAttributes (p : Pool) :
    ∃ attributes q, b.lineAttributes l p = .ok attributes q := by
  unfold lineAttributes
  split
  · exact ⟨[], p, rfl⟩
  obtain ⟨rows, made⟩ := Layout.exists_mapM (f := l.lineEntry?) fun line listed => by
    obtain ⟨pc, at_pc⟩ := Layout.exists_pc (found line.1 (mem_mentions_of_line listed))
    exact ⟨_, except_bind_eq_ok.2 ⟨pc, at_pc, rfl⟩⟩
  have entries : l.lineTable b.lines = .ok (List.filterMap id rows) :=
    except_map_eq_ok.2 ⟨rows, made, rfl⟩
  exact ⟨_, _, step_bind_eq_ok.2 ⟨_, p, edit_lift_eq_ok.2 ⟨entries, rfl⟩,
    step_bind_eq_ok.2 ⟨_, _, edit_change_eq_ok.2 rfl, rfl⟩⟩⟩

theorem exists_localAttributes (p : Pool) :
    ∃ attributes q, b.localAttributes l p = .ok attributes q := by
  unfold localAttributes
  split
  · exact ⟨[], p, rfl⟩
  obtain ⟨entries, made⟩ := Layout.exists_mapM (f := l.localEntry) fun v listed => by
    obtain ⟨start, at_start⟩ := Layout.exists_pc
      (found v.start (mem_mentions_of_local listed (.head _)))
    obtain ⟨stop, at_stop⟩ := Layout.exists_pc
      (found v.stop (mem_mentions_of_local listed (.tail _ (.head _))))
    exact ⟨_, except_bind_eq_ok.2 ⟨start, at_start, except_bind_eq_ok.2 ⟨stop, at_stop, rfl⟩⟩⟩
  exact ⟨_, _, step_bind_eq_ok.2 ⟨_, p, edit_lift_eq_ok.2 ⟨made, rfl⟩,
    step_bind_eq_ok.2 ⟨_, _, edit_change_eq_ok.2 rfl, rfl⟩⟩⟩

end Tables

/-- A complete body that is laid out is written. -/
theorem Complete.exists_toCode (h : b.Complete) (laid : Layout.ofCode b.code = .ok l) (p : Pool) :
    ∃ c q, b.toCode p = .ok c q ∧ c.code.length = l.size := by
  have settled := Layout.settled_of_ofCode laid
  have found : ∀ x ∈ b.mentions, ∃ o, l.offsetOf x = .ok o := fun x mem =>
    Layout.offsetOf_of_label settled.labels (settled.items.symm ▸ h.placed x mem)
  obtain ⟨parts, written⟩ := Layout.exists_mapM (f := l.itemBytes) fun q listed => by
    cases item : q.item with
    | label x => exact ⟨[], (Layout.itemBytes_label item).2 rfl⟩
    | op i =>
      have mem : i ∈ b.instructions := List.mem_filterMap.2
        ⟨.op i, by rw [← settled.items, ← item]; exact List.mem_map_of_mem listed, rfl⟩
      rw [Layout.itemBytes_op item]
      exact Layout.exists_instructionBytes
        (fun x target => found x (mem_mentions_of_target (List.mem_flatMap.2 ⟨i, mem, target⟩)))
        (h.ranged i mem) q.offset q.wide
  have code : l.bytes = .ok parts.flatten := except_map_eq_ok.2 ⟨parts, written, rfl⟩
  obtain ⟨exceptions, handled⟩ := exists_exceptionTable found
  obtain ⟨lines, p₁, lined⟩ := exists_lineAttributes found p
  obtain ⟨locals, p₂, localed⟩ := exists_localAttributes found p₁
  refine ⟨⟨b.maxStack, b.maxLocals, parts.flatten, exceptions, lines ++ locals⟩, p₂, ?_,
    settled.length_bytes code⟩
  refine (step_bind_ok (edit_lift_eq_ok.2 ⟨laid, rfl⟩)).trans ?_
  refine (step_bind_ok (edit_lift_eq_ok.2 ⟨code, rfl⟩)).trans ?_
  refine (step_bind_ok (edit_lift_eq_ok.2 ⟨handled, rfl⟩)).trans ?_
  exact (step_bind_ok lined).trans ((step_bind_ok localed).trans rfl)

/-- A complete body is written, unless a branch does not reach or there are too many bytes. -/
theorem Complete.toCode_cases (h : b.Complete) (p : Pool) :
    (∃ c q, b.toCode p = .ok c q) ∨ ∃ e, b.toCode p = .error e p ∧ Layout.Refuses e := by
  have places : Layout.Places b.code := fun x mem => h.placed x (mem_mentions_of_target mem)
  rcases Layout.ofCode_cases places.branches with ⟨l, laid⟩ | ⟨e, failed, refuses⟩
  · obtain ⟨c, q, written, -⟩ := h.exists_toCode laid p
    exact .inl ⟨c, q, written⟩
  · exact .inr ⟨e, step_bind_error (edit_lift_eq_error.2 ⟨failed, rfl⟩), refuses⟩

end Body

end Weft
