import Mathlib.Data.List.Nodup
import Weft.Proofs.Code.RoundTrip

/-!
# Bodies that are read

An instruction that is read has the operand of its opcode and, in its plain form, takes no more bytes
than it was read of. The instructions of code stand one behind the other up to its end. So a body
that is read can be written and read back again.
-/

namespace Weft

/-- What holds of an instruction that was read of `n` bytes at `offset`. -/
structure Instruction.Occupies (offset n : Nat) (i : Instruction) : Prop where
  shaped : i.WellShaped
  size : i.size offset false ≤ n
  reaches : ∀ target, i.operand = .branch target →
    Layout.isShort ((target.number.toNat : Int) - offset) = true ∨ 5 ≤ n

namespace Opcode

/-- What the plain opcode has in common with the one that was read. -/
theorem narrow_kind : ∀ op : Opcode, op ≠ wide → op.narrow.isForm = false ∧
    (op.operandKind = .constant2 → op.narrow.operandKind ∈ [.constant1, .constant2]) ∧
    (op.operandKind = .branch4 → op.narrow.operandKind = .branch2) ∧
    (op.operandKind ≠ .constant2 → op.operandKind ≠ .branch4 → op.narrow = op) := by
  decide +kernel

theorem narrow_of_kind {op : Opcode} {kind : OperandKind} (laid : op.operandKind = kind)
    (own : kind ∉ [OperandKind.wide, .constant2, .branch4]) :
    op.narrow = op ∧ op.isForm = false := by
  subst laid
  simp only [List.mem_cons, List.not_mem_nil, or_false, not_or] at own
  obtain ⟨form, -, -, same⟩ := op.narrow_kind fun same => own.1 ((operandKind_iff op).2.2.2 same)
  have same := same own.2.1 own.2.2
  exact ⟨same, same ▸ form⟩

end Opcode

theorem Layout.isShort_toInt (d : Int16) : isShort d.toInt = true := by
  have least := d.le_toInt
  have most := d.toInt_lt
  rw [isShort, Bool.and_eq_true, decide_eq_true_eq, decide_eq_true_eq]
  omega

theorem toUInt16_le (b : UInt8) : b.toUInt16 ≤ 255 := by
  have := b.toNat_lt
  rw [UInt16.le_iff_toNat_le]
  simp
  omega

theorem isWideIndex_toUInt16 (b : UInt8) : isWideIndex b.toUInt16 = false :=
  decide_eq_false (UInt16.not_lt.2 (toUInt16_le b))

theorem fitsByte_toInt16 (d : Int8) : fitsByte d.toInt16 = true := by
  have least := d.le_toInt
  have most := d.toInt_lt
  rw [fitsByte, Bool.and_eq_true, decide_eq_true_eq, decide_eq_true_eq, Int16.le_iff_toInt_le,
    Int16.le_iff_toInt_le]
  simp
  omega

namespace Reader.Yields

variable {pos offset : Nat}

/-- The target at a distance is that far from the offset. -/
theorem target (distance : Int) : (Reader.target offset distance).Yields pos fun n x =>
    n = 0 ∧ (x.number.toNat : Int) - offset = distance := by
  unfold Reader.target
  dsimp only
  split
  · rename_i inside
    refine pure ⟨rfl, ?_⟩
    have small : ((offset : Int) + distance).toNat < 2 ^ 32 := by omega
    rw [show (UInt32.ofNat ((offset : Int) + distance).toNat).toNat =
      ((offset : Int) + distance).toNat from Nat.mod_eq_of_lt small]
    omega
  · exact throw

theorem farTarget : (Reader.farTarget offset).Yields pos fun n _ => n = 4 :=
  i32.bind fun _ d four => (target d.toInt).mono fun _ _ ⟨zero, _⟩ => by omega

theorem align4 : Reader.align4.Yields (offset + 1) fun n _ => n = switchPadding offset := by
  intro rest a s' done
  obtain ⟨here, s, stands, done⟩ := step_bind_eq_ok.1 done
  cases stands
  exact (bytes _).bind (Q := fun n _ => n = switchPadding offset)
    (fun _ _ same => pure same) rest a s' done

theorem require (k : Nat) : (Reader.require k).Yields pos fun n _ => n = 0 := by
  intro rest a s' done
  unfold Reader.require at done
  split at done
  · cases done
    exact ⟨0, rfl, (Nat.zero_add _).symm, rfl⟩
  · cases done

theorem tableSwitch : (Reader.tableSwitch offset).Yields (offset + 1) fun n o =>
    ∃ default low targets, o = .tableSwitch default low targets ∧ targets ≠ [] ∧
      n = switchPadding offset + 12 + 4 * targets.length := by
  refine align4.bind fun n _ padded => farTarget.bind fun m default four => ?_
  refine i32.bind fun m' low four' => i32.bind fun m'' high four'' => ?_
  dsimp only
  split
  · exact throw
  · rename_i ordered
    rw [Int32.lt_iff_toInt_lt] at ordered
    refine (require _).bind fun m₀ _ none => (times (fun _ => farTarget) _).bind
      fun k targets ⟨taken, count⟩ => pure ⟨default, low, targets, rfl, ?_, by omega⟩
    rintro rfl
    rw [List.length_nil] at count
    omega

theorem lookupSwitch : (Reader.lookupSwitch offset).Yields (offset + 1) fun n o =>
    ∃ default pairs, o = .lookupSwitch default pairs ∧
      n = switchPadding offset + 8 + 8 * pairs.length := by
  refine align4.bind fun n _ padded => farTarget.bind fun m default four => ?_
  refine i32.bind fun m' count four' => ?_
  split
  · exact throw
  · have pair (pos : Nat) : Yields (do return (← Reader.i32, ← Reader.farTarget offset)) pos
        fun n _ => n = 8 :=
      i32.bind fun _ _ four => farTarget.bind fun _ _ four' => pure (by omega)
    exact (require _).bind fun m₀ _ none => (times pair _).bind
      fun k pairs ⟨taken, many⟩ => pure ⟨default, pairs, rfl, by omega⟩

end Reader.Yields

namespace Instruction

variable {offset : Nat}

/-- An operand of one form comes with the opcode that was read. -/
theorem occupies_of_kind {op : Opcode} {kind : OperandKind} (laid : op.operandKind = kind)
    {operand : Operand} {n : Nat} (listed : kind ∈ operand.kinds)
    (own : kind ∉ [OperandKind.wide, .constant2, .branch4]) (ranged : operand.isEmptyTable = false)
    (size : (⟨op, operand⟩ : Instruction).size offset false ≤ n)
    (reaches : ∀ target, operand = .branch target →
      Layout.isShort ((target.number.toNat : Int) - offset) = true) :
    (⟨op.narrow, operand⟩ : Instruction).Occupies offset n := by
  obtain ⟨same, form⟩ := Opcode.narrow_of_kind laid own
  rw [same]
  exact ⟨⟨laid ▸ listed, form, ranged⟩, size, fun target jump => .inl (reaches target jump)⟩

end Instruction

namespace Reader.Yields

variable {offset : Nat}

/-- The operand of an opcode takes the bytes behind that of the opcode. -/
theorem operand {op : Opcode} (plain : op ≠ .wide) :
    (Reader.operand offset op.operandKind).Yields (offset + 1) fun n o =>
      (⟨op.narrow, o⟩ : Instruction).Occupies offset (1 + n) := by
  obtain ⟨form, constant, far, -⟩ := op.narrow_kind plain
  cases kind : op.operandKind with
  | wide => exact absurd ((Opcode.operandKind_iff op).2.2.1 kind) plain
  | none =>
    exact pure (Instruction.occupies_of_kind kind (.head _) (by decide) rfl (Nat.le_refl 1) (by simp))
  | signedByte =>
    refine i8.bind ?_
    rintro _ v rfl
    exact pure (Instruction.occupies_of_kind kind (.head _) (by decide) rfl (Nat.le_refl 2) (by simp))
  | unsignedByte =>
    refine u8.bind ?_
    rintro _ v rfl
    exact pure (Instruction.occupies_of_kind kind (.head _) (by decide) rfl (Nat.le_refl 2) (by simp))
  | signedShort =>
    refine i16.bind ?_
    rintro _ v rfl
    exact pure (Instruction.occupies_of_kind kind (.head _) (by decide) rfl (Nat.le_refl 3) (by simp))
  | «local» =>
    refine u8.bind ?_
    rintro _ index rfl
    refine pure (Instruction.occupies_of_kind kind (.head _) (by decide) rfl ?_ (by simp))
    simp only [Instruction.size, isWideIndex_toUInt16]
    exact Nat.le_refl 2
  | increment =>
    refine u8.bind ?_
    rintro _ index rfl
    refine i8.bind ?_
    rintro _ delta rfl
    refine pure (Instruction.occupies_of_kind kind (.head _) (by decide) rfl ?_ (by simp))
    simp only [Instruction.size, isWideIndex_toUInt16, fitsByte_toInt16]
    exact Nat.le_refl 3
  | constant1 =>
    obtain rfl := (Opcode.operandKind_iff op).1.1 kind
    refine u8.bind ?_
    rintro _ index rfl
    refine pure (Instruction.occupies_of_kind kind (.head _) (by decide) rfl ?_ (by simp))
    simp only [Instruction.size, toUInt16_le]
    exact Nat.le_refl 2
  | constant2 =>
    refine u16.bind ?_
    rintro _ index rfl
    refine pure ⟨⟨constant kind, form, rfl⟩, ?_, by simp⟩
    simp only [Instruction.size]
    split <;> decide
  | invokeInterface =>
    refine u16.bind ?_
    rintro _ index rfl
    refine u8.bind ?_
    rintro _ count rfl
    refine u8.bind ?_
    rintro _ zero rfl
    exact pure (Instruction.occupies_of_kind kind (.head _) (by decide) rfl (Nat.le_refl 5) (by simp))
  | invokeDynamic =>
    refine u16.bind ?_
    rintro _ index rfl
    refine u16.bind ?_
    rintro _ zero rfl
    exact pure (Instruction.occupies_of_kind kind (.head _) (by decide) rfl (Nat.le_refl 5) (by simp))
  | multiArray =>
    refine u16.bind ?_
    rintro _ index rfl
    refine u8.bind ?_
    rintro _ dimensions rfl
    exact pure (Instruction.occupies_of_kind kind (.head _) (by decide) rfl (Nat.le_refl 4) (by simp))
  | branch2 =>
    refine i16.bind ?_
    rintro _ d rfl
    refine (target d.toInt).bind ?_
    rintro _ x ⟨rfl, distance⟩
    refine pure (Instruction.occupies_of_kind kind (.head _) (by decide) rfl (Nat.le_refl 3) ?_)
    rintro _ ⟨⟩
    rw [distance]
    exact Layout.isShort_toInt d
  | branch4 =>
    refine farTarget.bind ?_
    rintro _ x rfl
    refine pure ⟨⟨?_, form, rfl⟩, (show 3 ≤ 5 by decide), fun _ _ => .inr (Nat.le_refl 5)⟩
    rw [far kind]
    exact .head _
  | tableSwitch =>
    refine tableSwitch.mono ?_
    rintro _ _ ⟨default, low, targets, rfl, some_target, rfl⟩
    refine Instruction.occupies_of_kind kind (.head _) (by decide) ?_ ?_ (by simp)
    · cases targets with
      | nil => exact absurd rfl some_target
      | cons target targets => rfl
    · simp only [Instruction.size]
      omega
  | lookupSwitch =>
    refine lookupSwitch.mono ?_
    rintro _ _ ⟨default, pairs, rfl, rfl⟩
    refine Instruction.occupies_of_kind kind (.head _) (by decide) rfl ?_ (by simp)
    simp only [Instruction.size]
    omega

theorem wideInstruction : (Reader.wideInstruction offset).Yields (offset + 1) fun n i =>
    i.Occupies offset (1 + n) := by
  refine u8.bind ?_
  rintro _ byte rfl
  dsimp only
  split
  · exact throw
  · rename_i op _
    split
    · rename_i kind
      obtain ⟨same, -⟩ := Opcode.narrow_of_kind kind (by decide)
      refine u16.bind ?_
      rintro _ index rfl
      rw [← same]
      refine pure (Instruction.occupies_of_kind kind (.head _) (by decide) rfl ?_ (by simp))
      simp only [Instruction.size]
      split <;> decide
    · rename_i kind
      obtain ⟨same, -⟩ := Opcode.narrow_of_kind kind (by decide)
      refine u16.bind ?_
      rintro _ index rfl
      refine i16.bind ?_
      rintro _ delta rfl
      rw [← same]
      refine pure (Instruction.occupies_of_kind kind (.head _) (by decide) rfl ?_ (by simp))
      simp only [Instruction.size]
      split <;> decide
    · exact throw

theorem instruction (offset : Nat) : (Instruction.read offset).Yields offset fun n i =>
    0 < n ∧ i.Occupies offset n := by
  refine u8.bind ?_
  rintro _ byte rfl
  split
  · exact throw
  · rename_i op _
    split
    · exact wideInstruction.mono fun n i occupies => ⟨by omega, occupies⟩
    · rename_i kind
      have plain : op ≠ .wide := fun same => kind ((Opcode.operandKind_iff op).2.2.2 same)
      exact map ((operand plain).mono fun n o occupies => ⟨by omega, occupies⟩)

end Reader.Yields

/-! ## Code -/

namespace Located

/-- The instructions from `start` on stand one behind the other, and the last ends at `stop`. -/
def Adjoin : Nat → List Located → Nat → Prop
  | start, [], stop => start = stop
  | start, i :: rest, stop => i.offset = start ∧
      ∃ n, 0 < n ∧ i.instruction.Occupies start n ∧ Adjoin (start + n) rest stop

variable {located : List Located} {start stop : Nat}

/-- What holds at the end of the bytes, and in front of an instruction if it holds behind that, holds
of all that is read: an instruction takes bytes, so there is fuel for all of them. -/
theorem readAll_rule {P : Nat → Bytes → List Located → Prop} (nil : ∀ start, P start [] [])
    (cons : ∀ start bs i pos left more, Instruction.read start ⟨start, bs⟩ = .ok i ⟨pos, left⟩ →
      P pos left more → P start bs (⟨start, i⟩ :: more))
    {fuel : Nat} {acc : List Located} {rest : Bytes} {s : Input}
    (h : readAll fuel acc ⟨start, rest⟩ = .ok located s) (enough : rest.length ≤ fuel) :
    ∃ more, located = acc.reverse ++ more ∧ P start rest more := by
  induction fuel generalizing acc start rest with
  | zero =>
    obtain ⟨rfl, -⟩ := step_pure_eq_ok.1 h
    obtain rfl := List.length_eq_zero_iff.1 (Nat.le_zero.1 enough)
    exact ⟨[], (List.append_nil _).symm, nil start⟩
  | succ fuel ih =>
    obtain ⟨more, s₁, left, h⟩ := step_bind_eq_ok.1 h
    cases left
    cases rest with
    | nil =>
      obtain ⟨rfl, -⟩ := step_pure_eq_ok.1 h
      exact ⟨[], (List.append_nil _).symm, nil start⟩
    | cons b rest =>
      obtain ⟨offset, s₂, here, h⟩ := step_bind_eq_ok.1 h
      cases here
      obtain ⟨i, ⟨pos, left⟩, read, h⟩ := step_bind_eq_ok.1 h
      obtain ⟨n, -, length, some_bytes, -⟩ :=
        Reader.Yields.instruction start (b :: rest) i _ read
      dsimp only at length
      obtain ⟨more, rfl, behind⟩ := ih h (by omega)
      exact ⟨⟨start, i⟩ :: more, by simp, cons start _ i pos left more read behind⟩

theorem ofBytes_rule {P : Nat → Bytes → List Located → Prop} (nil : ∀ start, P start [] [])
    (cons : ∀ start bs i pos left more, Instruction.read start ⟨start, bs⟩ = .ok i ⟨pos, left⟩ →
      P pos left more → P start bs (⟨start, i⟩ :: more))
    {code : Bytes} (h : ofBytes code = .ok located) : P 0 code located := by
  obtain ⟨s, read⟩ := Reader.parse_eq_ok h
  obtain ⟨more, rfl, holds⟩ := readAll_rule nil cons read (Nat.le_refl _)
  exact holds

theorem adjoin_of_ofBytes {code : Bytes} (h : ofBytes code = .ok located) :
    Adjoin 0 located code.length := by
  rw [← Nat.zero_add code.length]
  refine ofBytes_rule (P := fun start bs more => Adjoin start more (start + bs.length)) ?_ ?_ h
  · exact fun start => rfl
  · intro start bs i pos left more read adjoined
    obtain ⟨n, rfl, length, some_bytes, occupies⟩ := Reader.Yields.instruction start bs i _ read
    refine ⟨rfl, n, some_bytes, occupies, ?_⟩
    rwa [length, ← Nat.add_assoc]

namespace Adjoin

theorem le (h : Adjoin start located stop) : start ≤ stop := by
  induction located generalizing start with
  | nil => exact Nat.le_of_eq h
  | cons i rest ih =>
    obtain ⟨-, n, -, -, h⟩ := h
    exact Nat.le_trans (Nat.le_add_right _ _) (ih h)

theorem bounds (h : Adjoin start located stop) {i : Located} (mem : i ∈ located) :
    start ≤ i.offset ∧ i.offset < stop ∧ i.instruction.WellShaped := by
  induction located generalizing start with
  | nil => cases mem
  | cons j rest ih =>
    obtain ⟨rfl, n, some_bytes, occupies, h⟩ := h
    rcases List.mem_cons.1 mem with rfl | mem
    · exact ⟨Nat.le_refl _, by have := h.le; omega, occupies.shaped⟩
    · obtain ⟨least, most, shaped⟩ := ih h mem
      exact ⟨by omega, most, shaped⟩

/-- The offsets of instructions and of the end increase. -/
theorem sorted (h : Adjoin start located stop) :
    (located.map (·.offset) ++ [stop]).Pairwise (· < ·) := by
  induction located generalizing start with
  | nil => exact List.pairwise_singleton _ _
  | cons i rest ih =>
    obtain ⟨rfl, n, some_bytes, -, h⟩ := h
    refine List.pairwise_cons.2 ⟨fun o mem => ?_, ih h⟩
    rcases List.mem_append.1 mem with mem | mem
    · obtain ⟨j, within, rfl⟩ := List.mem_map.1 mem
      exact Nat.lt_of_lt_of_le (Nat.lt_add_of_pos_right some_bytes) (h.bounds within).1
    · rw [List.mem_singleton.1 mem]
      exact Nat.lt_of_lt_of_le (Nat.lt_add_of_pos_right some_bytes) h.le

end Adjoin

end Located

/-! ## Bodies -/

theorem Instruction.WellShaped.mapLabels {i : Instruction} (h : i.WellShaped) (f : Label → Label) :
    (i.mapLabels f).WellShaped := by
  obtain ⟨op, operand⟩ := i
  obtain ⟨kind, plain, ranged⟩ := h
  cases operand with
  | tableSwitch default low targets =>
    refine ⟨kind, plain, ?_⟩
    cases targets with
    | nil => exact ranged
    | cons target targets => rfl
  | _ => exact ⟨kind, plain, ranged⟩

namespace LabelTable

variable {table : LabelTable} {referenced : Nat → Prop} {offsets : List Nat}

theorem labels_mark (table : LabelTable) (o : Nat) :
    (table.mark o).filterMap Item.label? = (table[o]?).toList := by
  unfold mark
  cases table[o]? <;> rfl

theorem labels_code (table : LabelTable) (located : List Located) (stop : Nat) :
    (located.flatMap table.items ++ table.mark stop).filterMap Item.label? =
      (located.map (·.offset) ++ [stop]).filterMap (table[·]?) := by
  have last : [stop].filterMap (table[·]?) = (table[stop]?).toList := by
    cases found : table[stop]? <;> simp [found]
  rw [List.filterMap_append, List.filterMap_append, labels_mark, last]
  congr 1
  induction located with
  | nil => rfl
  | cons i rest ih =>
    rw [List.flatMap_cons, List.filterMap_append, ih, items, List.filterMap_append, labels_mark,
      List.map_cons]
    cases found : table[i.offset]? <;> simp [found, Item.label?]

/-- Each label stands once in code that is read. -/
theorem Numbers.once (numbers : table.Numbers referenced offsets) {located : List Located}
    {stop : Nat} (sorted : (located.map (·.offset) ++ [stop]).Pairwise (· < ·)) :
    ((located.flatMap table.items ++ table.mark stop).filterMap Item.label?).Nodup := by
  rw [labels_code]
  exact List.Nodup.filterMap (fun o o' x h h' => numbers.apart o o' x h h')
    (sorted.imp Nat.ne_of_lt)

end LabelTable

end Weft
