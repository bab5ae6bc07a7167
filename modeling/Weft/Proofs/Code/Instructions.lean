import Weft.Code.Decode
import Weft.Proofs.Bytes.Reading
import Weft.Proofs.Code.Layout

/-!
# Instructions as bytes

The bytes of an instruction are as many as its size says, and the reader takes them for that
instruction, with the offsets of its labels in place of the labels. The form may be another than
the plain one, `ldc_w` for `ldc`, a `wide` local or a `goto_w`; the reader answers the plain opcode.
-/

namespace Weft

/-! ## Shapes -/

/-- The layouts that describe such an operand. -/
def Operand.kinds : Operand → List OperandKind
  | .none => [.none]
  | .byte _ => [.signedByte]
  | .arrayType _ => [.unsignedByte]
  | .short _ => [.signedShort]
  | .local _ => [.local]
  | .increment .. => [.increment]
  | .constant _ => [.constant1, .constant2]
  | .invokeInterface .. => [.invokeInterface]
  | .invokeDynamic _ => [.invokeDynamic]
  | .multiArray .. => [.multiArray]
  | .branch _ => [.branch2, .branch4]
  | .tableSwitch .. => [.tableSwitch]
  | .lookupSwitch .. => [.lookupSwitch]

/-- The opcode of a form that is chosen on writing. -/
def Opcode.isForm (op : Opcode) : Bool :=
  op = .ldcW || op = .gotoW || op = .jsrW || op = .wide

/-- The switch has no range. -/
def Operand.isEmptyTable : Operand → Bool
  | .tableSwitch _ _ [] => true
  | _ => false

/-- The instruction has the operand that its opcode asks for, in the plain form. -/
structure Instruction.WellShaped (i : Instruction) : Prop where
  kind : i.opcode.operandKind ∈ i.operand.kinds
  plain : i.opcode.isForm = false
  ranged : i.operand.isEmptyTable = false

instance (i : Instruction) : Decidable i.WellShaped :=
  decidable_of_iff (i.opcode.operandKind ∈ i.operand.kinds ∧ i.opcode.isForm = false ∧
    i.operand.isEmptyTable = false) ⟨fun ⟨k, p, r⟩ => ⟨k, p, r⟩, fun ⟨k, p, r⟩ => ⟨k, p, r⟩⟩

namespace Opcode

theorem ofByte?_byte (op : Opcode) : ofByte? op.byte = some op := by
  simp [ofByte?, op.known]

/-- The opcode of a number. -/
def ofNumber (n : Nat) (h : n < 202) : Opcode :=
  ⟨UInt8.ofNat n, by simp [UInt8.le_iff_toNat_le]; omega⟩

theorem forall_iff {P : Opcode → Prop} : (∀ op, P op) ↔ ∀ n (h : n < 202), P (ofNumber n h) := by
  refine ⟨fun all n h => all _, fun each op => ?_⟩
  have bound : op.byte.toNat < 202 := by
    have := UInt8.le_iff_toNat_le.1 op.known
    simp at this
    omega
  have same : ofNumber op.byte.toNat bound = op := by
    cases op; simp [ofNumber]
  exact same ▸ each _ bound

instance (P : Opcode → Prop) [DecidablePred P] : Decidable (∀ op, P op) :=
  decidable_of_iff _ forall_iff.symm

/-- Which opcodes have a short constant, a wide distance, and another opcode behind them. -/
theorem operandKind_iff : ∀ op : Opcode, (op.operandKind = .constant1 ↔ op = ldc) ∧
    (op.operandKind = .branch4 ↔ op = gotoW ∨ op = jsrW) ∧
    (op.operandKind = .wide ↔ op = wide) := by
  decide +kernel

theorem narrow_of_plain {op : Opcode} (h : op.isForm = false) : op.narrow = op := by
  simp only [isForm, Bool.or_eq_false_iff, decide_eq_false_iff_not] at h
  simp [narrow, h.1.1.1, h.1.1.2, h.1.2]

theorem kind_ne_wide {op : Opcode} (h : op.isForm = false) : op.operandKind ≠ .wide := by
  rw [ne_eq, (operandKind_iff op).2.2]
  rintro rfl
  exact absurd h (by decide)

theorem kind_ne_branch4 {op : Opcode} (h : op.isForm = false) : op.operandKind ≠ .branch4 := by
  rw [ne_eq, (operandKind_iff op).2.1]
  rintro (rfl | rfl)
  · exact absurd h (by decide)
  · exact absurd h (by decide)

theorem eq_of_canWiden {op : Opcode} (h : Layout.canWiden op = true) :
    op = .goto ∨ op = .jsr := by
  simpa [Layout.canWiden] using h

end Opcode

/-! ## Targets -/

namespace Layout

/-- The offset of a label as the label that a reader answers. -/
def mark (l : Layout) (x : Label) : Label := ⟨UInt32.ofNat (l.labels.getD x 0)⟩

theorem mark_of_offsetOf {l : Layout} {x : Label} {o : Nat} (h : l.offsetOf x = .ok o) :
    l.mark x = ⟨UInt32.ofNat o⟩ := by
  rw [mark, Std.HashMap.getD_eq_getD_getElem?, labels_of_offsetOf h]
  rfl

theorem distance_eq_ok {l : Layout} {offset : Nat} {x : Label} {d : Int} :
    l.distance offset x = .ok d ↔ ∃ o, l.offsetOf x = .ok o ∧ d = (o : Int) - offset := by
  rw [distance, except_bind_eq_ok]
  simp only [except_pure_eq_ok, eq_comm (a := d)]

end Layout

namespace Reader.Takes

variable {pos offset : Nat}

/-- The target at the distance of an offset is that offset. -/
theorem target {o : Nat} (h : o ≤ 65535) :
    (Reader.target offset ((o : Int) - offset)).Takes pos [] ⟨UInt32.ofNat o⟩ := by
  have place : (offset : Int) + (o - offset) = o := by omega
  unfold Reader.target
  simp only [place]
  rw [if_pos (by omega), Int.toNat_natCast]
  exact pure _

theorem nearTarget {o : Nat} (h : o ≤ 65535) (short : Layout.isShort (o - offset) = true) :
    Takes (do Reader.target offset (← Reader.i16).toInt) pos
      (Bytes.ofInt16 (o - offset)) ⟨UInt32.ofNat o⟩ := by
  simp only [Layout.isShort, Bool.and_eq_true, decide_eq_true_eq] at short
  have distance : (Int16.ofInt (o - offset)).toInt = o - offset :=
    Int16.toInt_ofInt_of_le (by omega) (by omega)
  rw [← List.append_nil (Bytes.ofInt16 _)]
  refine (i16 (Int16.ofInt (o - offset))).bind ?_
  rw [distance]
  exact target h

theorem farTarget {o : Nat} (h : o ≤ 65535) (near : offset ≤ 65535) :
    (Reader.farTarget offset).Takes pos (Bytes.ofInt32 (o - offset)) ⟨UInt32.ofNat o⟩ := by
  have distance : (Int32.ofInt (o - offset)).toInt = o - offset :=
    Int32.toInt_ofInt_of_le (by omega) (by omega)
  rw [← List.append_nil (Bytes.ofInt32 _)]
  refine (i32 (Int32.ofInt (o - offset))).bind ?_
  rw [distance]
  exact target h

theorem align4 : Reader.align4.Takes (offset + 1)
    (List.replicate (switchPadding offset) 0) () := by
  have here : Reader.pos.Takes (offset + 1) [] (offset + 1) := fun _ => rfl
  exact here.bind ((bytes List.length_replicate).map (f := fun _ => ()))

theorem require {α : Type} {r : Reader α} {n : Nat} {bs : Bytes} {a : α} (h : r.Takes pos bs a)
    (fits : n ≤ bs.length) : Takes (do Reader.require n; r) pos bs a := by
  intro rest
  have split : (bs ++ rest).splitAt? n = some (bs.take n, bs.drop n ++ rest) := by
    have exact_ := Bytes.splitAt?_append (bs.take n) (bs.drop n ++ rest)
    rwa [← List.append_assoc, List.take_append_drop, List.length_take, Nat.min_eq_left fits]
      at exact_
  have passed : Reader.require n ⟨pos, bs ++ rest⟩ = .ok () ⟨pos, bs ++ rest⟩ := by
    simp only [Reader.require, split]
  rw [step_bind_ok passed]
  exact h rest

end Reader.Takes

/-! ## Plain and wide forms -/

namespace Instruction

variable {offset : Nat} {bs : Bytes}

/-- An opcode with its own operand is read as the opcode that it stands for. -/
theorem read_takes {op : Opcode} (narrow : op.operandKind ≠ .wide) {operand : Operand}
    (h : (Reader.operand offset op.operandKind).Takes (offset + 1) bs operand) :
    (read offset).Takes offset (op.byte :: bs) ⟨op.narrow, operand⟩ := by
  refine (Reader.Takes.u8 op.byte).bind ?_
  simp only [Opcode.ofByte?_byte, narrow, if_false]
  exact h.map

/-- What stands behind `wide` is read as such. -/
theorem read_wide_takes {i : Instruction}
    (h : (Reader.wideInstruction offset).Takes (offset + 1) bs i) :
    (read offset).Takes offset (Opcode.wide.byte :: bs) i := by
  refine (Reader.Takes.u8 Opcode.wide.byte).bind ?_
  simp only [Opcode.ofByte?_byte, (Opcode.operandKind_iff _).2.2.2 rfl, if_true]
  exact h

/-- A local of sixteen bits behind `wide`. -/
theorem read_wide_local {op : Opcode} (kind : op.operandKind = .local) (index : UInt16) :
    (read offset).Takes offset (Opcode.wide.byte :: op.byte :: Bytes.ofU16 index)
      ⟨op, .local index⟩ := by
  refine read_wide_takes ((Reader.Takes.u8 op.byte).bind ?_)
  simp only [Opcode.ofByte?_byte, kind]
  exact (Reader.Takes.u16 index).map

/-- An increment of sixteen bits behind `wide`. -/
theorem read_wide_increment {op : Opcode} (kind : op.operandKind = .increment) (index : UInt16)
    (delta : Int16) :
    (read offset).Takes offset
      (Opcode.wide.byte :: op.byte :: (Bytes.ofU16 index ++ Bytes.ofU16 delta.toUInt16))
      ⟨op, .increment index delta⟩ := by
  refine read_wide_takes ((Reader.Takes.u8 op.byte).bind ?_)
  simp only [Opcode.ofByte?_byte, kind]
  exact (Reader.Takes.u16 index).bind (Reader.Takes.i16 delta).map

/-- A plain opcode with its own operand is read as such. -/
theorem read_plain {op : Opcode} (plain : op.isForm = false) {kind : OperandKind}
    (layout : op.operandKind = kind) {operand : Operand}
    (h : (Reader.operand offset kind).Takes (offset + 1) bs operand) :
    (read offset).Takes offset (op.byte :: bs) ⟨op, operand⟩ := by
  subst layout
  have taken := read_takes (Opcode.kind_ne_wide plain) h
  rwa [Opcode.narrow_of_plain plain] at taken

end Instruction

/-! ## Switches -/

namespace Layout

variable {l : Layout} {offset : Nat} {bs : Bytes}

/-- Every label stands where sixteen bits reach. -/
def Near (l : Layout) : Prop := ∀ x o, l.offsetOf x = .ok o → o ≤ 65535

theorem length_distanceBytes {x : Label} (h : l.distanceBytes offset x = .ok bs) :
    bs.length = 4 := by
  obtain ⟨d, -, rfl⟩ := except_map_eq_ok.1 h
  rfl

theorem takes_distanceBytes (near : l.Near) (start : offset ≤ 65535) {x : Label}
    (h : l.distanceBytes offset x = .ok bs) (pos : Nat) :
    (Reader.farTarget offset).Takes pos bs (l.mark x) := by
  obtain ⟨d, found, rfl⟩ := except_map_eq_ok.1 h
  obtain ⟨o, at_o, rfl⟩ := distance_eq_ok.1 found
  rw [mark_of_offsetOf at_o]
  exact Reader.Takes.farTarget (near x o at_o) start

theorem length_flatten_of_length {α : Type} {n : Nat} {f : α → Except Error Bytes} {as : List α}
    {parts : List Bytes} (each : ∀ a bs, f a = .ok bs → bs.length = n)
    (h : as.mapM f = .ok parts) : parts.flatten.length = n * as.length := by
  induction except_mapM_eq_ok.1 h with
  | nil => rfl
  | cons head _ ih =>
    rw [List.flatten_cons, List.length_append, each _ _ head, ih (except_mapM_eq_ok.2 ‹_›),
      List.length_cons, Nat.mul_succ, Nat.add_comm]

theorem takes_times {α β : Type} {r : Reader β} {f : α → Except Error Bytes} {g : α → β}
    {as : List α} {parts : List Bytes} {pos : Nat}
    (each : ∀ a bs, f a = .ok bs → ∀ pos, r.Takes pos bs (g a)) (h : as.mapM f = .ok parts) :
    (Reader.times as.length r).Takes pos parts.flatten (as.map g) := by
  refine Reader.Takes.times ?_ (List.length_map g)
  rw [except_mapM_eq_ok] at h
  rw [List.forall₂_map_right_iff]
  exact (h.imp fun a bs => each a bs).flip

/-- What is written of a `tableswitch`. -/
theorem tableBytes_eq_ok {default : Label} {low : Int32} {targets : List Label} :
    l.tableBytes offset default low targets = .ok bs ↔
      ∃ first rest, l.distanceBytes offset default = .ok first ∧
        -2147483648 ≤ low.toInt + targets.length - 1 ∧
        low.toInt + targets.length - 1 ≤ 2147483647 ∧
        targets.mapM (l.distanceBytes offset) = .ok rest ∧
        bs = List.replicate (switchPadding offset) 0 ++ (first ++ (Bytes.ofInt32 low.toInt ++
          (Bytes.ofInt32 (low.toInt + targets.length - 1) ++ rest.flatten))) := by
  simp only [tableBytes, except_bind_eq_ok]
  constructor
  · rintro ⟨first, hf, h⟩
    split at h
    · cases h
    · rename_i ranged
      simp only [Bool.or_eq_true, decide_eq_true_eq, not_or] at ranged
      obtain ⟨rest, hr, rfl⟩ := except_map_eq_ok.1 h
      exact ⟨first, rest, hf, by omega, by omega, hr, rfl⟩
  · rintro ⟨first, rest, hf, least, most, hr, rfl⟩
    refine ⟨first, hf, ?_⟩
    rw [if_neg (by simp only [Bool.or_eq_true, decide_eq_true_eq]; omega)]
    exact except_bind_eq_ok.2 ⟨rest, hr, rfl⟩

/-- What is written of a `lookupswitch`. -/
theorem lookupBytes_eq_ok {default : Label} {pairs : List (Int32 × Label)} :
    l.lookupBytes offset default pairs = .ok bs ↔
      ∃ first rest, l.distanceBytes offset default = .ok first ∧
        (pairs.mapM fun p => do
          return Bytes.ofInt32 p.1.toInt ++ (← l.distanceBytes offset p.2)) = .ok rest ∧
        bs = List.replicate (switchPadding offset) 0 ++
          (first ++ (Bytes.ofInt32 pairs.length ++ rest.flatten)) := by
  simp only [lookupBytes, except_bind_eq_ok, except_pure_eq_ok]
  constructor
  · rintro ⟨first, hf, rest, hr, rfl⟩
    exact ⟨first, rest, hf, hr, rfl⟩
  · rintro ⟨first, rest, hf, hr, rfl⟩
    exact ⟨first, hf, rest, hr, rfl⟩

theorem takes_tableBytes (near : l.Near) (start : offset ≤ 65535) {default : Label} {low : Int32}
    {targets : List Label} (ranged : targets ≠ [])
    (h : l.tableBytes offset default low targets = .ok bs) :
    (Reader.tableSwitch offset).Takes (offset + 1) bs
      (.tableSwitch (l.mark default) low (targets.map l.mark)) := by
  obtain ⟨first, rest, hf, least, most, hr, rfl⟩ := tableBytes_eq_ok.1 h
  have some_target : 0 < targets.length := List.length_pos_of_ne_nil ranged
  have high : (Int32.ofInt (low.toInt + targets.length - 1)).toInt =
      low.toInt + targets.length - 1 := Int32.toInt_ofInt_of_le (by omega) (by omega)
  have length_rest : rest.flatten.length = 4 * targets.length :=
    length_flatten_of_length (fun _ _ => length_distanceBytes) hr
  refine Reader.Takes.align4.bind ((takes_distanceBytes near start hf _).bind ?_)
  refine (Reader.Takes.i32 (Int32.ofInt low.toInt)).bind ((Reader.Takes.i32 _).bind ?_)
  rw [Int32.ofInt_toInt, if_neg (by rw [Int32.lt_iff_toInt_lt, high]; omega), high,
    show (low.toInt + targets.length - 1 - low.toInt + 1).toNat = targets.length by omega]
  refine Reader.Takes.require ?_ (by omega)
  exact (takes_times (fun _ _ h => takes_distanceBytes near start h) hr).map

theorem takes_pairBytes (near : l.Near) (start : offset ≤ 65535) {p : Int32 × Label}
    (h : (do return Bytes.ofInt32 p.1.toInt ++ (← l.distanceBytes offset p.2)) = Except.ok bs)
    (pos : Nat) :
    Reader.Takes (do return (← Reader.i32, ← Reader.farTarget offset)) pos bs
      (p.1, l.mark p.2) := by
  obtain ⟨target, ht, h⟩ := except_bind_eq_ok.1 h
  rw [except_pure_eq_ok] at h
  subst h
  have key : Reader.i32.Takes pos (Bytes.ofInt32 p.1.toInt) p.1 := by
    rw [Bytes.ofInt32, Int32.ofInt_toInt]
    exact Reader.Takes.i32 p.1
  exact key.bind ((takes_distanceBytes near start ht _).map (f := fun t => (p.1, t)))

theorem length_pairBytes {p : Int32 × Label}
    (h : (do return Bytes.ofInt32 p.1.toInt ++ (← l.distanceBytes offset p.2)) = Except.ok bs) :
    bs.length = 8 := by
  obtain ⟨target, ht, h⟩ := except_bind_eq_ok.1 h
  rw [except_pure_eq_ok] at h
  rw [← h, List.length_append, length_distanceBytes ht]
  rfl

theorem takes_lookupBytes (near : l.Near) (start : offset ≤ 65535) {default : Label}
    {pairs : List (Int32 × Label)} (bounded : pairs.length ≤ 65535)
    (h : l.lookupBytes offset default pairs = .ok bs) :
    (Reader.lookupSwitch offset).Takes (offset + 1) bs
      (.lookupSwitch (l.mark default) (pairs.map fun p => (p.1, l.mark p.2))) := by
  obtain ⟨first, rest, hf, hr, rfl⟩ := lookupBytes_eq_ok.1 h
  have length_rest : rest.flatten.length = 8 * pairs.length :=
    length_flatten_of_length (fun _ _ => length_pairBytes) hr
  have count : (Int32.ofInt pairs.length).toInt = pairs.length :=
    Int32.toInt_ofInt_of_le (by omega) (by omega)
  refine Reader.Takes.align4.bind ((takes_distanceBytes near start hf _).bind ?_)
  refine (Reader.Takes.i32 (Int32.ofInt pairs.length)).bind ?_
  rw [if_neg (by rw [Int32.lt_iff_toInt_lt, count]; simp), count, Int.toNat_natCast]
  refine Reader.Takes.require ?_ (by omega)
  exact (takes_times (fun _ _ h => takes_pairBytes near start h) hr).map

/-! ## Instructions -/

/-- The bytes of an instruction are as many as its size. -/
theorem length_instructionBytes {wide : Bool} {i : Instruction}
    (h : l.instructionBytes offset wide i = .ok bs) : bs.length = i.size offset wide := by
  obtain ⟨op, operand⟩ := i
  unfold instructionBytes at h
  cases operand with
  | none | byte value | arrayType code | short value | invokeInterface index count
    | invokeDynamic index | multiArray index dimensions =>
    cases except_pure_eq_ok.1 h
    rfl
  | «local» index =>
    simp only at h
    split at h <;> cases except_pure_eq_ok.1 h <;> simp_all [Instruction.size]
  | increment index delta =>
    simp only at h
    split at h <;> cases except_pure_eq_ok.1 h <;> simp_all [Instruction.size]
  | constant index =>
    simp only at h
    split at h
    · split at h <;> cases except_pure_eq_ok.1 h <;> simp_all [Instruction.size]
    · cases except_pure_eq_ok.1 h
      simp_all [Instruction.size]
  | branch target =>
    obtain ⟨d, -, h⟩ := except_bind_eq_ok.1 h
    split at h <;> cases except_pure_eq_ok.1 h <;>
      simp_all [Instruction.size, Bytes.ofInt16, Bytes.ofInt32]
  | tableSwitch default low targets =>
    obtain ⟨table, ht, rfl⟩ := except_map_eq_ok.1 h
    obtain ⟨first, rest, hf, -, -, hr, rfl⟩ := tableBytes_eq_ok.1 ht
    have length_first := length_distanceBytes hf
    have length_rest := length_flatten_of_length (fun _ _ => length_distanceBytes) hr
    simp only [Instruction.size, List.length_cons, List.length_append, List.length_replicate,
      Bytes.ofInt32, Bytes.length_ofU32]
    omega
  | lookupSwitch default pairs =>
    obtain ⟨table, ht, rfl⟩ := except_map_eq_ok.1 h
    obtain ⟨first, rest, hf, hr, rfl⟩ := lookupBytes_eq_ok.1 ht
    have length_first := length_distanceBytes hf
    have length_rest := length_flatten_of_length (fun _ _ => length_pairBytes) hr
    simp only [Instruction.size, List.length_cons, List.length_append, List.length_replicate,
      Bytes.ofInt32, Bytes.length_ofU32]
    omega

theorem toUInt16_toUInt8 {n : UInt16} (h : n ≤ 255) : n.toUInt8.toUInt16 = n := by
  have := UInt16.le_iff_toNat_le.1 h
  apply UInt16.toNat_inj.1
  simp at this ⊢
  omega

theorem toInt16_toInt8 {n : Int16} (h : fitsByte n = true) : n.toInt8.toInt16 = n := by
  simp only [fitsByte, Bool.and_eq_true, decide_eq_true_eq, Int16.le_iff_toInt_le] at h
  apply Int16.toInt_inj.1
  simp at h ⊢
  exact Int.bmod_eq_of_le (by omega) (by omega)

/-- The width of a jump is right: a wide one has a wide form, and a narrow one reaches. -/
structure Fits (l : Layout) (offset : Nat) (wide : Bool) (i : Instruction) : Prop where
  widenable : wide = true → canWiden i.opcode = true
  reaches : wide = false → ∀ target d, i.operand = .branch target →
    l.distance offset target = .ok d → isShort d = true

section Forms

variable {wide : Bool} {op : Opcode}

/-- A slot beyond a byte is written behind `wide`. -/
theorem takes_localBytes {index : UInt16}
    (shape : Instruction.WellShaped ⟨op, .local index⟩)
    (h : l.instructionBytes offset wide ⟨op, .local index⟩ = .ok bs) :
    (Instruction.read offset).Takes offset bs ⟨op, .local index⟩ := by
  have layout : op.operandKind = .local := List.mem_singleton.1 shape.kind
  simp only [instructionBytes] at h
  split at h
  · cases except_pure_eq_ok.1 h
    exact Instruction.read_wide_local layout index
  · rename_i narrow
    cases except_pure_eq_ok.1 h
    have low : index ≤ 255 := by simpa [isWideIndex] using narrow
    have operand : (Reader.operand offset .local).Takes (offset + 1) [index.toUInt8]
        (.local index.toUInt8.toUInt16) := (Reader.Takes.u8 _).map
    rw [toUInt16_toUInt8 low] at operand
    exact Instruction.read_plain shape.plain layout operand

/-- An increment is written behind `wide` unless both of its numbers fit a byte. -/
theorem takes_incrementBytes {index : UInt16} {delta : Int16}
    (shape : Instruction.WellShaped ⟨op, .increment index delta⟩)
    (h : l.instructionBytes offset wide ⟨op, .increment index delta⟩ = .ok bs) :
    (Instruction.read offset).Takes offset bs ⟨op, .increment index delta⟩ := by
  have layout : op.operandKind = .increment := List.mem_singleton.1 shape.kind
  simp only [instructionBytes] at h
  split at h
  · cases except_pure_eq_ok.1 h
    exact Instruction.read_wide_increment layout index delta
  · rename_i narrow
    cases except_pure_eq_ok.1 h
    simp only [Bool.or_eq_true, not_or, Bool.not_eq_true, Bool.not_eq_false', isWideIndex,
      decide_eq_false_iff_not] at narrow
    have operand : (Reader.operand offset .increment).Takes (offset + 1)
        [index.toUInt8, delta.toInt8.toUInt8]
        (.increment index.toUInt8.toUInt16 delta.toInt8.toInt16) :=
      (Reader.Takes.u8 _).bind (Reader.Takes.i8 _).map
    rw [toUInt16_toUInt8 (by simpa using narrow.1), toInt16_toInt8 narrow.2] at operand
    exact Instruction.read_plain shape.plain layout operand

/-- A constant is loaded by the short form if its index fits a byte. -/
theorem takes_constantBytes {index : UInt16}
    (shape : Instruction.WellShaped ⟨op, .constant index⟩)
    (h : l.instructionBytes offset wide ⟨op, .constant index⟩ = .ok bs) :
    (Instruction.read offset).Takes offset bs ⟨op, .constant index⟩ := by
  simp only [instructionBytes] at h
  split at h
  · rename_i short
    subst short
    split at h
    · rename_i low
      cases except_pure_eq_ok.1 h
      have operand : (Reader.operand offset .constant1).Takes (offset + 1) [index.toUInt8]
          (.constant index.toUInt8.toUInt16) := (Reader.Takes.u8 _).map
      rw [toUInt16_toUInt8 low] at operand
      have layout : Opcode.operandKind .ldc = .constant1 := by decide +kernel
      exact Instruction.read_plain shape.plain layout operand
    · cases except_pure_eq_ok.1 h
      have layout : Opcode.operandKind .ldcW ≠ .wide := by decide +kernel
      exact Instruction.read_takes layout (Reader.Takes.u16 index).map
  · rename_i long
    cases except_pure_eq_ok.1 h
    have layout : op.operandKind = .constant2 := by
      rcases List.mem_pair.1 shape.kind with kind | kind
      · exact absurd ((Opcode.operandKind_iff op).1.1 kind) long
      · exact kind
    exact Instruction.read_plain shape.plain layout (Reader.Takes.u16 index).map

/-- A jump that is wide is written in its wide form; one that is narrow reaches. -/
theorem takes_branchBytes {target : Label} (near : l.Near) (start : offset ≤ 65535)
    (shape : Instruction.WellShaped ⟨op, .branch target⟩)
    (fits : l.Fits offset wide ⟨op, .branch target⟩)
    (h : l.instructionBytes offset wide ⟨op, .branch target⟩ = .ok bs) :
    (Instruction.read offset).Takes offset bs ⟨op, .branch (l.mark target)⟩ := by
  obtain ⟨d, hd, h⟩ := except_bind_eq_ok.1 h
  obtain ⟨o, ho, rfl⟩ := distance_eq_ok.1 hd
  rw [mark_of_offsetOf ho]
  split at h
  · rename_i wide
    have there : (Reader.farTarget offset).Takes (offset + 1) (Bytes.ofInt32 (o - offset))
        ⟨UInt32.ofNat o⟩ := .farTarget (near target o ho) start
    have far := there.map (f := Operand.branch)
    rcases Opcode.eq_of_canWiden (fits.widenable wide) with rfl | rfl
    · cases except_pure_eq_ok.1 h
      have layout : Opcode.operandKind .gotoW ≠ .wide := by decide +kernel
      exact Instruction.read_takes layout far
    · cases except_pure_eq_ok.1 h
      have layout : Opcode.operandKind .jsrW ≠ .wide := by decide +kernel
      exact Instruction.read_takes layout far
  · rename_i narrow
    cases except_pure_eq_ok.1 h
    have layout : op.operandKind = .branch2 := by
      rcases List.mem_pair.1 shape.kind with kind | kind
      · exact kind
      · exact absurd kind (Opcode.kind_ne_branch4 shape.plain)
    have reaches := fits.reaches (Bool.not_eq_true _ ▸ narrow) target _ rfl hd
    exact Instruction.read_plain shape.plain layout
      (Reader.Takes.nearTarget (near target o ho) reaches).map

end Forms

/-- What is written of an instruction is read as this instruction, with offsets for its labels. -/
theorem takes_instructionBytes {wide : Bool} {i : Instruction} (near : l.Near)
    (start : offset ≤ 65535) (shape : i.WellShaped) (fits : l.Fits offset wide i)
    (small : i.size offset wide ≤ 65535)
    (h : l.instructionBytes offset wide i = .ok bs) :
    (Instruction.read offset).Takes offset bs (i.mapLabels l.mark) := by
  obtain ⟨op, operand⟩ := i
  have ⟨kind, plain, ranged⟩ := shape
  simp only at kind plain ranged
  cases operand with
  | none =>
    cases except_pure_eq_ok.1 h
    exact Instruction.read_plain plain (List.mem_singleton.1 kind) (Reader.Takes.pure _)
  | byte value =>
    cases except_pure_eq_ok.1 h
    exact Instruction.read_plain plain (List.mem_singleton.1 kind) (Reader.Takes.i8 value).map
  | arrayType code =>
    cases except_pure_eq_ok.1 h
    exact Instruction.read_plain plain (List.mem_singleton.1 kind) (Reader.Takes.u8 code).map
  | short value =>
    cases except_pure_eq_ok.1 h
    exact Instruction.read_plain plain (List.mem_singleton.1 kind) (Reader.Takes.i16 value).map
  | «local» index => exact takes_localBytes shape h
  | increment index delta => exact takes_incrementBytes shape h
  | constant index => exact takes_constantBytes shape h
  | invokeInterface index count =>
    cases except_pure_eq_ok.1 h
    refine Instruction.read_plain plain (List.mem_singleton.1 kind) ?_
    refine (Reader.Takes.u16 index).bind ((Reader.Takes.u8 count).bind ?_)
    exact (Reader.Takes.u8 0).map
  | invokeDynamic index =>
    cases except_pure_eq_ok.1 h
    refine Instruction.read_plain plain (List.mem_singleton.1 kind) ?_
    exact (Reader.Takes.u16 index).bind (Reader.Takes.u16 0).map
  | multiArray index dimensions =>
    cases except_pure_eq_ok.1 h
    refine Instruction.read_plain plain (List.mem_singleton.1 kind) ?_
    exact (Reader.Takes.u16 index).bind (Reader.Takes.u8 dimensions).map
  | branch target => exact takes_branchBytes near start shape fits h
  | tableSwitch default low targets =>
    obtain ⟨table, ht, rfl⟩ := except_map_eq_ok.1 h
    refine Instruction.read_plain plain (List.mem_singleton.1 kind) ?_
    exact takes_tableBytes near start (by rintro rfl; cases ranged) ht
  | lookupSwitch default pairs =>
    obtain ⟨table, ht, rfl⟩ := except_map_eq_ok.1 h
    refine Instruction.read_plain plain (List.mem_singleton.1 kind) ?_
    exact takes_lookupBytes near start (by simp only [Instruction.size] at small; omega) ht

end Layout

end Weft
