import Weft.Proofs.Code.Binding
import Weft.Proofs.Code.Shrinking

/-!
# Bodies that are written as they were read

The bytes of code that is read are rooms for its instructions, and the body that is read is laid out
in these rooms. A branch without a wide form that reached over a switch may not reach any more, as
what is written before the switch can be shorter and the padding of the switch longer. If such
branches leave three bytes to their limits, a body is written again, in no more bytes than it was
read of.
-/

namespace Weft

/-! ## Instructions -/

theorem Instruction.size_mapLabels (f : Label → Label) (i : Instruction) (offset : Nat)
    (wide : Bool) : (i.mapLabels f).size offset wide = i.size offset wide := by
  obtain ⟨op, operand⟩ := i
  cases operand with
  | tableSwitch | lookupSwitch => simp [mapLabels, Operand.mapLabels, size]
  | _ => rfl

theorem Instruction.isSwitch_mapLabels (f : Label → Label) (i : Instruction) :
    (i.mapLabels f).isSwitch = i.isSwitch := by
  obtain ⟨op, operand⟩ := i
  cases operand <;> rfl

namespace Instruction

variable {offset : Nat} {i : Instruction} {bs : Bytes}

/-- The bytes of an instruction are room for it. -/
theorem Spelled.occupies (h : i.Spelled offset bs) : i.Occupies offset bs.length := by
  have read := (Reader.Spells.instruction offset).takes i bs h []
  obtain ⟨n, moved, -, -, occupies⟩ := Reader.Yields.instruction offset _ _ _ read
  obtain rfl : bs.length = n := Nat.add_left_cancel moved
  exact occupies

/-- A branch has a distance of two bytes, or it is a wide jump. -/
theorem Spelled.branch_cases {op : Opcode} {x : Label}
    (h : (⟨op, .branch x⟩ : Instruction).Spelled offset bs) :
    (Layout.isShort ((x.number.toNat : Int) - offset) = true ∧
      ∃ near : Opcode, bs[0]? = some near.byte ∧ near.operandKind = .branch2) ∨
      (Layout.canWiden op = true ∧ 5 ≤ bs.length) := by
  generalize same : (⟨op, .branch x⟩ : Instruction) = i at h
  cases h with
  | @plain op' operand bs narrow spelled =>
    obtain ⟨rfl, rfl⟩ := Instruction.mk.inj same
    generalize kind : op'.operandKind = k at spelled
    cases spelled with
    | branch2 d place =>
      refine .inl ⟨?_, op', rfl, kind⟩
      rw [show (x.number.toNat : Int) - offset = d.toInt by have := place.place; omega]
      exact Layout.isShort_toInt d
    | branch4 target =>
      refine .inr ⟨?_, ?_⟩
      · rcases (Opcode.operandKind_iff op').2.1.1 kind with rfl | rfl <;> decide
      · have := Reader.Spells.length_of_farSpelled target
        rw [List.length_cons]
        omega
  | wide spelled =>
    subst same
    cases spelled

theorem Spelled.ranged (h : i.Spelled offset bs) : i.Ranged := by
  intro default low targets table
  cases h with
  | @plain op operand bs narrow spelled =>
    generalize op.operandKind = k at spelled
    cases spelled with
    | @tableSwitch _ _ _ _ high _ _ _ _ count ordered =>
      cases table
      have least := low.le_toInt
      have most := high.toInt_lt
      have ordered := Int32.le_iff_toInt_le.1 (Int32.not_lt.1 ordered)
      omega
    | _ => cases table
  | wide spelled => cases spelled <;> cases table

theorem Ranged.mapLabels (h : i.Ranged) (f : Label → Label) : (i.mapLabels f).Ranged := by
  obtain ⟨op, operand⟩ := i
  intro default low targets table
  cases operand with
  | tableSwitch default' low' targets' =>
    cases table
    rw [List.length_map]
    exact h default' _ targets' rfl
  | _ => cases table

end Instruction

theorem Located.Spelled.exists_bytes {start : Nat} {located : List Located} {bs : Bytes}
    (h : Located.Spelled start located bs) :
    ∀ i ∈ located, ∃ bs, i.instruction.Spelled i.offset bs := by
  induction h with
  | nil => exact List.forall_mem_nil _
  | cons first _ ih => exact List.forall_mem_cons.2 ⟨⟨_, first⟩, ih⟩

/-! ## Rooms of code that is read -/

/-- The room is that of a label at one of the places, or of the bytes of an instruction. -/
inductive Room.IsOf (code : Bytes) (places : List Nat) (located : List Located) : Room → Prop
  | label (o : Nat) : IsOf code places located ⟨.label (labelOf places o), o, 0⟩
  | op {i : Located} {bs : Bytes} (mem : i ∈ located) (spelled : i.instruction.Spelled i.offset bs)
    (first : code[i.offset]? = bs[0]?) :
    IsOf code places located ⟨.op (i.bound places), i.offset, bs.length⟩

/-- The rooms of instructions and of the labels before them, from `start` to `stop`. -/
structure Room.Houses (code : Bytes) (places : List Nat) (located : List Located)
    (start stop : Nat) (rooms : List Room) : Prop where
  items : rooms.map (·.item) = located.flatMap (fun i => markOf places i.offset ++
    [.op (i.bound places)]) ++ markOf places stop
  adjoined : Adjoin start rooms stop
  each : ∀ r ∈ rooms, IsOf code places located r
  labels : ∀ o ∈ located.map (·.offset) ++ [stop], o ∈ places →
    ⟨.label (labelOf places o), o, 0⟩ ∈ rooms

namespace Room

variable {code : Bytes} {places : List Nat} {located : List Located} {r : Room}

theorem IsOf.mono {more : List Located} (h : IsOf code places located r) (subset : located ⊆ more) :
    IsOf code places more r := by
  cases h with
  | label o => exact .label o
  | op mem spelled first => exact .op (subset mem) spelled first

/-- The room of the label that may be at an offset. -/
def ofMark (places : List Nat) (o : Nat) : List Room :=
  (markOf places o).map fun item => ⟨item, o, 0⟩

theorem items_ofMark (places : List Nat) (o : Nat) :
    (ofMark places o).map (·.item) = markOf places o := by
  rw [ofMark, List.map_map]
  exact List.map_id _

theorem ofMark_cases (places : List Nat) (o : Nat) :
    (o ∈ places ∧ ofMark places o = [⟨.label (labelOf places o), o, 0⟩]) ∨
      (o ∉ places ∧ ofMark places o = []) := by
  by_cases mem : o ∈ places
  · exact .inl ⟨mem, by rw [ofMark, markOf, if_pos mem]; rfl⟩
  · exact .inr ⟨mem, by rw [ofMark, markOf, if_neg mem]; rfl⟩

/-- A label in front takes no room. -/
theorem adjoin_ofMark {rooms : List Room} {start stop : Nat} (h : Adjoin start rooms stop) :
    Adjoin start (ofMark places start ++ rooms) stop := by
  rcases ofMark_cases places start with ⟨-, same⟩ | ⟨-, same⟩
  · rw [same]
    exact ⟨rfl, h⟩
  · rwa [same]

theorem houses_of_spelled {start : Nat} {bs : Bytes} (h : Located.Spelled start located bs)
    (at_start : code.drop start = bs) (places : List Nat) :
    ∃ rooms, Houses code places located start (start + bs.length) rooms := by
  have marked (o : Nat) (located : List Located) :
      ∀ r ∈ ofMark places o, IsOf code places located r := by
    intro r mem
    rcases ofMark_cases places o with ⟨-, same⟩ | ⟨-, same⟩
    · rw [same, List.mem_singleton] at mem
      exact mem ▸ .label o
    · rw [same] at mem
      cases mem
  have label {o : Nat} (place : o ∈ places) :
      ⟨.label (labelOf places o), o, 0⟩ ∈ ofMark places o := by
    rcases ofMark_cases places o with ⟨-, same⟩ | ⟨absent, -⟩
    · rw [same]
      exact .head _
    · exact absurd place absent
  induction h with
  | nil start =>
    refine ⟨ofMark places start, items_ofMark places start, ?_, marked start [], ?_⟩
    · have bare : Adjoin start (ofMark places start ++ []) start := adjoin_ofMark rfl
      rwa [List.append_nil] at bare
    · intro o mem place
      obtain rfl := List.mem_singleton.1 mem
      exact label place
  | @cons start i bs more rest first behind ih =>
    have rest_at : code.drop (start + bs.length) = more := by
      rw [← List.drop_drop, at_start, List.drop_left]
    obtain ⟨rooms, items, adjoined, each, labels⟩ := ih rest_at
    have some_bytes := Located.Spelled.length_pos first
    have here : code[start]? = bs[0]? := by
      have front := congrArg (·[0]?) at_start
      rwa [List.getElem?_drop, Nat.add_zero, List.getElem?_append_left some_bytes] at front
    rw [List.length_append, ← Nat.add_assoc]
    refine ⟨ofMark places start ++ ⟨.op ((⟨start, i⟩ : Located).bound places), start, bs.length⟩ ::
      rooms, ?_, adjoin_ofMark ⟨rfl, adjoined⟩, ?_, ?_⟩
    · rw [List.map_append, List.map_cons, items, items_ofMark, List.flatMap_cons]
      simp only [List.append_assoc, List.cons_append, List.nil_append]
    · intro r mem
      rcases List.mem_append.1 mem with mem | mem
      · exact marked start _ r mem
      · rcases List.mem_cons.1 mem with rfl | mem
        · exact .op (.head _) first here
        · exact (each r mem).mono (List.subset_cons_self _ _)
    · intro o mem place
      rw [List.map_cons, List.cons_append] at mem
      rcases List.mem_cons.1 mem with rfl | mem
      · exact List.mem_append_left _ (label place)
      · exact List.mem_append_right _ (.tail _ (labels o mem place))

end Room

/-! ## Bodies -/

namespace CodeAttribute

/-- The branches that have two bytes for their distance and lead over a switch leave three bytes to
the limits of the distance. -/
def Slack (c : CodeAttribute) (located : List Located) : Prop :=
  ∀ i ∈ located, ∀ x, i.instruction.operand = .branch x →
    (∃ near : Opcode, c.code[i.offset]? = some near.byte ∧ near.operandKind = .branch2) →
      (∃ w ∈ located, w.instruction.isSwitch = true ∧
        min i.offset x.number.toNat ≤ w.offset ∧ w.offset < max i.offset x.number.toNat) →
          Layout.isSlack ((x.number.toNat : Int) - i.offset) = true

variable {c : CodeAttribute} {p : Pool} {located : List Located} {places : List Nat}
  {rooms : List Room}

theorem fits_of_houses (houses : Room.Houses c.code places located 0 c.code.length rooms) :
    ∀ r ∈ rooms, r.Fits { item := r.item } := by
  intro r mem
  refine ⟨rfl, ?_⟩
  cases houses.each r mem with
  | label o => exact Nat.le_refl 0
  | op within spelled first =>
    simp only [Sized.size, Located.bound, Instruction.size_mapLabels]
    exact spelled.occupies.size

theorem switchWithin_of_houses (houses : Room.Houses c.code places located 0 c.code.length rooms)
    {first second : Nat} (h : Room.SwitchWithin rooms first second) :
    ∃ w ∈ located, w.instruction.isSwitch = true ∧ first ≤ w.offset ∧ w.offset < second := by
  obtain ⟨r, mem, switch, lower, upper⟩ := h
  cases houses.each r mem with
  | label o => cases switch
  | @op i _ within =>
    refine ⟨i, within, ?_, lower, upper⟩
    simpa [Item.isSwitch, Located.bound, Instruction.isSwitch_mapLabels] using switch

/-- The bytes of sound code are spacious, if the branches over switches are slack. -/
theorem spacious_of_houses (houses : Room.Houses c.code places located 0 c.code.length rooms)
    (sound : c.Sound located p) (mem_places : ∀ o, o ∈ places ↔ o ∈ c.named located)
    (slack : c.Slack located) : Layout.Spacious rooms := by
  intro r mem op target jump
  cases houses.each r mem with
  | label o => cases jump
  | @op i bs within spelled first =>
    obtain ⟨offset, op', operand⟩ := i
    cases operand with
    | branch x =>
      obtain ⟨rfl, rfl⟩ : op' = op ∧ labelOf places x.number.toNat = target := by
        cases jump
        exact ⟨rfl, rfl⟩
      have led : x.number.toNat ∈ (⟨offset, op', .branch x⟩ : Located).targetOffsets := .head _
      have start := sound.targets _ within _ led
      refine ⟨_, houses.labels _ (List.mem_append_left _ start)
        ((mem_places _).2 (named_of_target within led)), rfl, ?_⟩
      -- a branch that was read in its wide form has room for it, whatever it led over
      rcases spelled.branch_cases with ⟨short, near, opcode, kind⟩ | wide
      · refine .inl ⟨short, fun across => ?_⟩
        exact slack _ within x rfl ⟨near, first.trans opcode, kind⟩
          (switchWithin_of_houses houses across)
      · exact .inr wide
    | _ => cases jump

end CodeAttribute

namespace Body

variable {c : CodeAttribute} {p : Pool} {b : Body} {located : List Located} {places : List Nat}

/-- All that a body mentions which was read is placed. -/
theorem Binds.placed (binds : b.Binds c located places) :
    ∀ x ∈ b.mentions, x ∈ b.code.filterMap Item.label? := by
  have placed {o : Nat} (mem : o ∈ c.named located) :
      labelOf places o ∈ b.code.filterMap Item.label? := by
    rw [binds.labels]
    exact List.mem_map.2 ⟨_, List.mem_range.2
      (List.idxOf_lt_length_of_mem ((binds.mem_places o).2 mem)), rfl⟩
  intro x mem
  simp only [mentions, List.mem_append] at mem
  rcases mem with mem | mem | mem | mem | mem
  · exact mem
  · rw [binds.instructions] at mem
    obtain ⟨_, listed, mem⟩ := List.mem_flatMap.1 mem
    obtain ⟨i, within, rfl⟩ := List.mem_map.1 listed
    rw [Located.bound, Instruction.targets_mapLabels] at mem
    obtain ⟨y, led, rfl⟩ := List.mem_map.1 mem
    exact placed (CodeAttribute.named_of_target within (List.mem_map_of_mem led))
  · rw [binds.handlers] at mem
    obtain ⟨_, handled, mem⟩ := List.mem_flatMap.1 mem
    obtain ⟨e, listed, rfl⟩ := List.mem_map.1 handled
    have place {o : Nat} (mem : o ∈ e.offsets) : labelOf places o ∈ b.code.filterMap Item.label? :=
      placed (CodeAttribute.named_of_exception listed mem)
    simp only [Handler.labels, List.mem_cons, List.not_mem_nil, or_false] at mem
    rcases mem with rfl | rfl | rfl
    · exact place (.head _)
    · exact place (.tail _ (.head _))
    · exact place (.tail _ (.tail _ (.head _)))
  · rw [binds.lines, List.map_map] at mem
    obtain ⟨l, kept, rfl⟩ := List.mem_map.1 mem
    exact placed (CodeAttribute.named_of_line kept)
  · rw [binds.locals] at mem
    obtain ⟨_, listed, mem⟩ := List.mem_flatMap.1 mem
    obtain ⟨v, kept, rfl⟩ := List.mem_map.1 listed
    simp only [List.mem_cons, List.not_mem_nil, or_false] at mem
    rcases mem with rfl | rfl
    · exact placed (CodeAttribute.named_of_local kept (.head _))
    · exact placed (CodeAttribute.named_of_local kept (.tail _ (.head _)))

/-- A body that is read is complete. -/
theorem complete_of_ofCode (h : ofCode c p = .ok b) (short : c.code.length ≤ 65535) :
    b.Complete where
  once := (shaped_of_ofCode h short).once
  placed := by
    obtain ⟨located, places, -, -, binds⟩ := (ofCode_binds c p).2 b h
    exact binds.placed
  ranged := by
    obtain ⟨located, places, spelled, -, binds⟩ := (ofCode_binds c p).2 b h
    rw [binds.instructions]
    refine List.forall_mem_map.2 fun i within => ?_
    obtain ⟨bs, spelled⟩ := spelled.exists_bytes i within
    exact spelled.ranged.mapLabels _

theorem exists_layout (h : ofCode c p = .ok b) (short : c.code.length ≤ 65535)
    (slack : ∀ located, Located.Spelled 0 located c.code → c.Slack located) :
    ∃ l, Layout.ofCode b.code = .ok l ∧ l.size ≤ c.code.length := by
  obtain ⟨located, places, spelled, sound, binds⟩ := (ofCode_binds c p).2 b h
  obtain ⟨rooms, houses⟩ := Room.houses_of_spelled spelled List.drop_zero places
  rw [Nat.zero_add] at houses
  refine Layout.ofCode_of_fits (shaped_of_ofCode h short).once houses.adjoined
    (CodeAttribute.spacious_of_houses houses sound binds.mem_places (slack located spelled)) short
    ?_
  rw [binds.code, ← houses.items, List.forall₂_map_left_iff, List.forall₂_same]
  exact CodeAttribute.fits_of_houses houses

/-- A body is written as it was read, in no more bytes, if its branches over switches are slack. It
is refused only if a branch does not reach or if there are too many bytes. -/
theorem toCode_ofCode (h : ofCode c p = .ok b) (short : c.code.length ≤ 65535) (q : Pool) :
    ((∃ c' q', b.toCode.run q = .ok (c', q')) ∨
      ∃ e, b.toCode.run q = .error e ∧ Layout.Refuses e) ∧
    ((∀ located, Located.Spelled 0 located c.code → c.Slack located) →
      ∃ c' q', b.toCode.run q = .ok (c', q') ∧ c'.code.length ≤ c.code.length) := by
  -- the first part needs no rooms, the second finds a layout in those of the bytes
  have complete := complete_of_ofCode h short
  constructor
  · rcases complete.toCode_cases q with ⟨c', q', written⟩ | ⟨e, refused, refuses⟩
    · exact .inl ⟨c', q', edit_run_eq_ok.2 written⟩
    · exact .inr ⟨e, by rw [Edit.run, refused], refuses⟩
  · intro slack
    obtain ⟨l, laid, size⟩ := exists_layout h short slack
    obtain ⟨c', q', written, length⟩ := complete.exists_toCode laid q
    exact ⟨c', q', edit_run_eq_ok.2 written, length ▸ size⟩

/-! ## A branch over a switch -/

/-- The instruction that does nothing. -/
def nop : Instruction := ⟨.nop, .none⟩

/-- That many empty instructions from an offset on. -/
def nops (offset n : Nat) : List Located := (List.range' offset n).map (⟨·, nop⟩)

/-- A constant that is loaded by a wide index, a branch over a switch and over a number of empty
instructions, and the end. -/
def overSwitch (n : Nat) : CodeAttribute where
  maxStack := 1
  maxLocals := 0
  code := [0x13, 0, 1] ++ ((0x99 :: Bytes.ofInt16 (21 + n)) ++ ([0x03] ++
    ([0xAA, 0, 0, 0, 17, 0, 0, 0, 0, 0, 0, 0, 0, 0, 0, 0, 17] ++
      (List.replicate n 0 ++ [0xB1]))))
  exceptions := []
  attributes := []

/-- The instructions of the code, with the labels of the offset behind the switch and of the end. -/
def overSwitchOps (next last : Label) : List Instruction :=
  [⟨.ldc, .constant 1⟩, ⟨.ifeq, .branch last⟩, ⟨⟨0x03, by decide⟩, .none⟩,
    ⟨⟨0xAA, by decide⟩, .tableSwitch next 0 [next]⟩]

def overSwitchLocated (n : Nat) : List Located :=
  List.zipWith Located.mk [0, 3, 6, 7] (overSwitchOps ⟨24⟩ ⟨UInt32.ofNat (24 + n)⟩) ++
    (nops 24 n ++ [⟨24 + n, ⟨.voidReturn, .none⟩⟩])

theorem spelled_nops {offset n : Nat} {rest : List Located} {more : Bytes}
    (h : Located.Spelled (offset + n) rest more) :
    Located.Spelled offset (nops offset n ++ rest) (List.replicate n 0 ++ more) := by
  induction n generalizing offset with
  | zero => exact h
  | succ n ih =>
    have empty : nop.Spelled offset [0] := .plain (by decide : Opcode.nop.operandKind ≠ .wide) .none
    rw [← Nat.add_assoc, Nat.add_right_comm] at h
    exact @Located.Spelled.cons offset nop [0] _ _ empty (ih h)

theorem toNat_lastOverSwitch {n : Nat} (small : n ≤ 32746) :
    (UInt32.ofNat (24 + n)).toNat = 24 + n :=
  UInt32.toNat_ofNat_of_lt' (show 24 + n < 4294967296 by omega)

theorem spelled_overSwitch {n : Nat} (small : n ≤ 32746) :
    Located.Spelled 0 (overSwitchLocated n) (overSwitch n).code := by
  have far : Label.FarSpelled 7 ⟨24⟩ [0, 0, 0, 17] := .distance 17 ⟨by decide, by decide⟩
  have table : (Operand.tableSwitch ⟨24⟩ 0 [⟨24⟩]).Spelled 7 .tableSwitch
      [0, 0, 0, 17, 0, 0, 0, 0, 0, 0, 0, 0, 0, 0, 0, 17] :=
    @Operand.Spelled.tableSwitch 7 [] _ _ 0 0 _ _ ⟨by decide, by decide⟩ far (by decide) (by decide)
      (.cons far .nil)
  have distance : (Int16.ofInt (21 + n)).toInt = 21 + n :=
    Int16.toInt_ofInt_of_le (by omega) (by omega)
  have target : (⟨UInt32.ofNat (24 + n)⟩ : Label).IsAt 3 (Int16.ofInt (21 + n)).toInt := by
    have number := toNat_lastOverSwitch small
    constructor
    · rw [distance, number]
      omega
    · rw [number]
      omega
  have leaves (o : Nat) : (⟨.voidReturn, .none⟩ : Instruction).Spelled o [0xB1] :=
    .plain (by decide : Opcode.voidReturn.operandKind ≠ .wide) .none
  refine .cons (.plain (by decide : Opcode.ldcW.operandKind ≠ .wide) (.constant2 1)) ?_
  refine .cons (.plain (by decide : Opcode.ifeq.operandKind ≠ .wide) (.branch2 _ target)) ?_
  have zero : (⟨⟨0x03, by decide⟩, .none⟩ : Instruction).Spelled 6 [0x03] :=
    @Instruction.Spelled.plain 6 ⟨0x03, by decide⟩ _ _ (by decide) .none
  refine .cons zero ?_
  have switch := @Instruction.Spelled.plain 7 ⟨0xAA, by decide⟩ _ _ (by decide) table
  refine .cons switch (spelled_nops ?_)
  exact .cons (leaves _) (.nil _)

theorem length_overSwitch (n : Nat) : (overSwitch n).code.length = 25 + n := by
  simp only [overSwitch, Bytes.ofInt16, List.length_append, List.length_cons, Bytes.length_ofU16,
    List.length_nil, List.length_replicate]
  omega

theorem offsets_overSwitch (n : Nat) :
    (overSwitchLocated n).map (·.offset) = [0, 3, 6, 7] ++ (List.range' 24 n ++ [24 + n]) := by
  rw [overSwitchLocated, List.map_append, List.map_append, nops, List.map_map]
  exact congrArg (fun os => [0, 3, 6, 7] ++ (os ++ [24 + n])) (List.map_id _)

theorem mem_overSwitchLocated {n : Nat} {i : Located} : i ∈ overSwitchLocated n ↔
    i ∈ List.zipWith Located.mk [0, 3, 6, 7] (overSwitchOps ⟨24⟩ ⟨UInt32.ofNat (24 + n)⟩) ∨
      (∃ o, (24 ≤ o ∧ o < 24 + n) ∧ i = ⟨o, nop⟩) ∨ i = ⟨24 + n, ⟨.voidReturn, .none⟩⟩ := by
  rw [overSwitchLocated, List.mem_append, List.mem_append, nops, List.mem_map, List.mem_singleton]
  simp only [List.mem_range'_1, eq_comm]

/-- What holds of each instruction of the body, those that stand between the switch and the end being
all alike, holds of all. -/
theorem forall_overSwitchLocated {n : Nat} {P : Located → Prop} (load : P ⟨0, ⟨.ldc, .constant 1⟩⟩)
    (branch : P ⟨3, ⟨.ifeq, .branch ⟨UInt32.ofNat (24 + n)⟩⟩⟩)
    (zero : P ⟨6, ⟨⟨0x03, by decide⟩, .none⟩⟩)
    (switch : P ⟨7, ⟨⟨0xAA, by decide⟩, .tableSwitch ⟨24⟩ 0 [⟨24⟩]⟩⟩) (between : ∀ o, P ⟨o, nop⟩)
    (leave : P ⟨24 + n, ⟨.voidReturn, .none⟩⟩) : ∀ i ∈ overSwitchLocated n, P i := by
  intro i mem
  rcases mem_overSwitchLocated.1 mem with mem | ⟨o, -, rfl⟩ | rfl
  · simp only [overSwitchOps, List.zipWith_cons_cons, List.zipWith_nil_left, List.mem_cons,
      List.not_mem_nil, or_false] at mem
    rcases mem with rfl | rfl | rfl | rfl
    · exact load
    · exact branch
    · exact zero
    · exact switch
  · exact between o
  · exact leave

/-- A pool of one number. -/
def oneNumber : Pool := (Pool.empty.push (.integer 0)).2

theorem sound_overSwitch {n : Nat} (small : n ≤ 32746) :
    (overSwitch n).Sound (overSwitchLocated n) oneNumber where
  targets := by
    have known : ∀ i ∈ overSwitchLocated n, ∀ o ∈ i.targetOffsets, o = 24 ∨ o = 24 + n := by
      refine forall_overSwitchLocated nofun (fun o led => ?_) nofun (fun o led => ?_)
        (fun o => nofun) nofun
      · exact .inr ((List.mem_singleton.1 led).trans (toNat_lastOverSwitch small))
      · exact .inl (List.eq_of_mem_replicate (n := 2) led)
    intro i mem o led
    have known := known i mem o led
    rw [offsets_overSwitch]
    simp only [List.mem_append, List.mem_range'_1, List.mem_singleton]
    omega
  handlers := fun e listed => nomatch listed
  constants := by
    refine forall_overSwitchLocated (fun index named => ?_) nofun nofun nofun (fun o => nofun) nofun
    obtain rfl : 1 = index := Option.some.inj named
    exact ⟨by decide, by decide⟩

theorem slack_overSwitch {n : Nat} (small : n ≤ 32743) :
    (overSwitch n).Slack (overSwitchLocated n) := by
  refine forall_overSwitchLocated nofun (fun x jump near across => ?_) nofun nofun
    (fun o => nofun) nofun
  obtain rfl := Operand.branch.inj jump
  show Layout.isSlack (((UInt32.ofNat (24 + n)).toNat : Int) - (3 : Nat)) = true
  rw [toNat_lastOverSwitch (by omega), Layout.isSlack, Bool.and_eq_true, decide_eq_true_eq,
    decide_eq_true_eq]
  omega

/-- The body that is read of the code. -/
def overSwitchBody (n : Nat) : Body :=
  (overSwitch n).bodyWith (overSwitchLocated n) ((overSwitch n).labelTable (overSwitchLocated n))

theorem ofCode_overSwitch {n : Nat} (small : n ≤ 32746) :
    ofCode (overSwitch n) oneNumber = .ok (overSwitchBody n) :=
  (CodeAttribute.ofCode_eq_ok_iff (spelled_overSwitch small)).2 ⟨sound_overSwitch small, rfl⟩

theorem toCode_overSwitch_one : ofCode (overSwitch 1) oneNumber = .ok (overSwitchBody 1) ∧
    ∀ q, ∃ c' q', (overSwitchBody 1).toCode.run q = .ok (c', q') ∧ c'.code.length ≤ 26 := by
  have read := ofCode_overSwitch (n := 1) (by decide)
  refine ⟨read, fun q => (toCode_ofCode read (by decide) q).2 fun located spelled => ?_⟩
  have own := spelled_overSwitch (n := 1) (by decide)
  have same := (Located.ofBytes_eq_ok_iff.2 spelled).symm.trans (Located.ofBytes_eq_ok_iff.2 own)
  exact Except.ok.inj same ▸ slack_overSwitch (by decide)

end Body

/-! ### What the code is laid out as -/

namespace Layout

/-- Instructions one behind the other, each with its offset. -/
def stretch : Nat → List Instruction → List (Nat × Instruction)
  | _, [] => []
  | o, i :: rest => (o, i) :: stretch (o + i.size o false) rest

/-- The instructions among placed items with their offsets. -/
def placedOps (items : List Placed) : List (Nat × Instruction) :=
  items.filterMap fun p => p.item.instruction?.map (p.offset, ·)

theorem placedOps_label {p : Placed} {l : Label} (h : p.item = .label l) (items : List Placed) :
    placedOps (p :: items) = placedOps items := by
  simp [placedOps, h, Item.instruction?]

theorem placedOps_op {p : Placed} {i : Instruction} (h : p.item = .op i) (items : List Placed) :
    placedOps (p :: items) = (p.offset, i) :: placedOps items := by
  simp [placedOps, h, Item.instruction?]

theorem mem_placedOps {items : List Placed} {o : Nat} {i : Instruction} :
    (o, i) ∈ placedOps items ↔ ∃ p ∈ items, p.offset = o ∧ p.item = .op i := by
  refine List.mem_filterMap.trans (exists_congr fun p => and_congr_right fun _ => ?_)
  cases item : p.item with
  | label l => simp [Item.instruction?]
  | op j => simp [Item.instruction?]

theorem fst_placedOps (items : List Placed) : (placedOps items).map (·.1) = starts items := by
  induction items with
  | nil => rfl
  | cons p rest ih =>
    cases item : p.item with
    | label l => rw [starts_label item, placedOps_label item, ih]
    | op i => rw [starts_op item, placedOps_op item, List.map_cons, ih]

/-- Where no instruction has a wide form, none is laid out wide. -/
theorem Settled.narrow {code : List Item} {l : Layout} (s : Settled code l)
    (none : ∀ i ∈ code.filterMap Item.instruction?, isWidenable (.op i) = false) :
    ∀ p ∈ l.items, p.wide = false := by
  intro p mem
  refine eq_false_of_ne_true fun wide => ?_
  have widenable := s.wide p mem wide
  cases item : p.item with
  | label x =>
    rw [item] at widenable
    cases widenable
  | op i =>
    have listed : i ∈ code.filterMap Item.instruction? := List.mem_filterMap.2
      ⟨.op i, by rw [← s.items, ← item]; exact List.mem_map_of_mem mem, rfl⟩
    rw [item, none i listed] at widenable
    cases widenable

theorem Contiguous.placedOps_eq {items : List Placed} {start stop : Nat}
    (joined : Contiguous start items stop) (narrow : ∀ p ∈ items, p.wide = false) :
    placedOps items = stretch start ((items.map (·.item)).filterMap Item.instruction?) := by
  induction items generalizing start with
  | nil => rfl
  | cons p rest ih =>
    obtain ⟨rfl, joined⟩ := joined
    obtain ⟨own, narrow⟩ := List.forall_mem_cons.1 narrow
    rw [List.map_cons]
    cases item : p.item with
    | label l =>
      rw [Placed.size_label item, Nat.add_zero] at joined
      rw [placedOps_label item, ih joined narrow]
      rfl
    | op i =>
      rw [Placed.size_op item, own] at joined
      rw [placedOps_op item, ih joined narrow]
      rfl

theorem stretch_nops (o n : Nat) (rest : List Instruction) :
    stretch o (List.replicate n Body.nop ++ rest) =
      (List.range' o n).map (·, Body.nop) ++ stretch (o + n) rest := by
  induction n generalizing o with
  | zero => rfl
  | succ n ih =>
    rw [List.replicate_succ, List.cons_append, stretch, List.range'_succ, List.map_cons]
    have next := ih (o + 1)
    rw [Nat.add_assoc, Nat.add_comm 1] at next
    exact congrArg _ next

end Layout

namespace Body

/-- The body is one of such code, by the names of its labels. -/
structure IsOverSwitch (b : Body) (n : Nat) (next last : Label) : Prop where
  instructions : b.instructions = overSwitchOps next last ++
    (List.replicate n nop ++ [⟨.voidReturn, .none⟩])
  once : (b.code.filterMap Item.label?).Nodup
  placed : last ∈ b.code.filterMap Item.label?
  position : b.position? last = some (4 + n)

theorem isOverSwitch_overSwitchBody {n : Nat} (small : n ≤ 32746) :
    ∃ next last, (overSwitchBody n).IsOverSwitch n next last := by
  have spelled := spelled_overSwitch small
  have number := toNat_lastOverSwitch small
  have length : (overSwitch n).code.length ≤ 65535 := by
    rw [length_overSwitch]
    omega
  obtain ⟨places, binds⟩ : ∃ places,
      (overSwitchBody n).Binds (overSwitch n) (overSwitchLocated n) places :=
    ⟨_, CodeAttribute.binds_bodyWith spelled (sound_overSwitch small)⟩
  have place : 24 + n ∈ places := by
    refine (binds.mem_places _).2 (CodeAttribute.named_of_target
      (mem_overSwitchLocated.2 (.inl (.tail _ (.head _)))) ?_)
    exact List.mem_singleton.2 number.symm
  refine ⟨labelOf places 24, labelOf places (24 + n), ?_,
    (shaped_of_ofCode (ofCode_overSwitch small) length).once, ?_, binds.position _ place _ ?_⟩
  · have empty : (nops 24 n).map (Located.bound places) = List.replicate n nop := by
      rw [nops, List.map_map]
      exact List.map_const'.trans (congrArg (List.replicate · nop) List.length_range')
    have front (last : Label) : (List.zipWith Located.mk [0, 3, 6, 7]
        (overSwitchOps ⟨24⟩ last)).map (Located.bound places) =
          overSwitchOps (labelOf places 24) (labelOf places last.number.toNat) := rfl
    rw [binds.instructions, overSwitchLocated, List.map_append, List.map_append, empty, front,
      number]
    rfl
  · rw [binds.labels]
    exact List.mem_map.2 ⟨_, List.mem_range.2 (List.idxOf_lt_length_of_mem place), rfl⟩
  · rw [CodeAttribute.boundaries, offsets_overSwitch, List.append_assoc,
      List.getElem?_append_right (Nat.le_add_right 4 n)]
    simp

theorem stretch_overSwitchOps (next last : Label) (rest : List Instruction) :
    Layout.stretch 0 (overSwitchOps next last ++ rest) =
      List.zip [0, 2, 5, 6] (overSwitchOps next last) ++ Layout.stretch 24 rest := by
  have load : (⟨.ldc, .constant 1⟩ : Instruction).size 0 false = 2 := rfl
  have branch : (⟨.ifeq, .branch last⟩ : Instruction).size 2 false = 3 := rfl
  have zero : (⟨⟨0x03, by decide⟩, .none⟩ : Instruction).size 5 false = 1 := rfl
  have switch : (⟨⟨0xAA, by decide⟩, .tableSwitch next 0 [next]⟩ : Instruction).size 6 false = 18 :=
    rfl
  simp only [overSwitchOps, List.cons_append, List.nil_append, Layout.stretch, Nat.zero_add, load,
    branch, Nat.reduceAdd, zero, switch, List.zip_cons_cons, List.zip_nil_left]

theorem IsOverSwitch.not_widenable {b : Body} {n : Nat} {next last : Label}
    (h : b.IsOverSwitch n next last) :
    ∀ i ∈ b.instructions, Layout.isWidenable (.op i) = false := by
  intro i mem
  rw [h.instructions] at mem
  simp only [overSwitchOps, List.mem_append, List.mem_cons, List.not_mem_nil, or_false,
    List.mem_replicate] at mem
  rcases mem with (rfl | rfl | rfl | rfl) | ⟨-, rfl⟩ | rfl
  all_goals rfl

/-- What is written before the switch is one byte shorter, and the switch one byte longer. -/
theorem IsOverSwitch.not_settled {b : Body} {n : Nat} {next last : Label} {l : Layout}
    (h : b.IsOverSwitch n next last) (many : n = 32746) : ¬Layout.Settled b.code l := by
  intro settled
  have narrow : ∀ p ∈ l.items, p.wide = false := settled.narrow h.not_widenable
  have ops : Layout.placedOps l.items = List.zip [0, 2, 5, 6] (overSwitchOps next last) ++
      ((List.range' 24 n).map (·, nop) ++ [(24 + n, ⟨.voidReturn, .none⟩)]) := by
    rw [settled.contiguous.placedOps_eq narrow, settled.items]
    show Layout.stretch 0 b.instructions = _
    rw [h.instructions, stretch_overSwitchOps, Layout.stretch_nops]
    rfl
  obtain ⟨o, found⟩ := Layout.offsetOf_of_label settled.labels (settled.items.symm ▸ h.placed)
  have target : o = 24 + n := by
    obtain ⟨k, here, boundary⟩ := settled.boundary h.once found
    obtain rfl : k = 4 + n := Option.some.inj (here.symm.trans h.position)
    have starts : Layout.starts l.items = [0, 2, 5, 6] ++ (List.range' 24 n ++ [24 + n]) := by
      rw [← Layout.fst_placedOps, ops, List.map_append, List.map_append, List.map_map]
      exact congrArg (fun os => [0, 2, 5, 6] ++ (os ++ [24 + n])) (List.map_id _)
    rw [starts, List.append_assoc, List.getElem?_append_right (Nat.le_add_right 4 n)] at boundary
    simpa [eq_comm] using boundary
  have branch : ((2, ⟨.ifeq, .branch last⟩) : Nat × Instruction) ∈ Layout.placedOps l.items := by
    rw [ops]
    exact .tail _ (.head _)
  obtain ⟨p, mem, offset, item⟩ := Layout.mem_placedOps.1 branch
  have distance : l.distance p.offset last = .ok ((o : Int) - p.offset) :=
    Layout.distance_eq_ok.2 ⟨o, found, rfl⟩
  have short := (settled.fits mem item).reaches (narrow p mem) last _ rfl distance
  rw [offset, target, many] at short
  exact absurd short (by decide)

/-- A body that was read is not written again, as its branch over the switch does not reach. -/
theorem toCode_overSwitch_refused : (overSwitch 32746).code.length ≤ 65535 ∧
    ∃ b, ofCode (overSwitch 32746) oneNumber = .ok b ∧
      ∀ q, ¬∃ c' q', b.toCode.run q = .ok (c', q') := by
  obtain ⟨next, last, across⟩ := isOverSwitch_overSwitchBody (n := 32746) (Nat.le_refl _)
  refine ⟨?_, _, ofCode_overSwitch (Nat.le_refl _), fun q => ?_⟩
  · rw [length_overSwitch]
    decide
  · rintro ⟨c', q', written⟩
    obtain ⟨-, l, w⟩ := toCode_eq_ok (edit_run_eq_ok.1 written)
    exact across.not_settled rfl (Layout.settled_of_ofCode w.layout)

end Body

end Weft
