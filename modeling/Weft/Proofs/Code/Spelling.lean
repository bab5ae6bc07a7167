import Weft.Proofs.Bytes.Spelling
import Weft.Proofs.Code.Decoding

/-!
# Bytes that spell code

Code is a sequence of instructions, each a known opcode with the operand of its layout. How an operand
is spelled depends on the offset of its instruction: targets are distances from there, and switches
are aligned to multiples of four. The instructions of code are read just if its bytes spell them.
-/

namespace Weft

/-! ## Operands -/

/-- The label has the number of the offset that is so far from `offset`. -/
structure Label.IsAt (offset : Nat) (distance : Int) (x : Label) : Prop where
  place : (x.number.toNat : Int) = offset + distance
  bound : x.number.toNat ≤ 65535

/-- The target is spelled by its distance in thirty-two bits. -/
inductive Label.FarSpelled (offset : Nat) : Label → Bytes → Prop
  | distance {x : Label} (d : Int32) (place : x.IsAt offset d.toInt) :
    FarSpelled offset x (Bytes.ofU32 d.toUInt32)

/-- The bytes behind an opcode at `offset` up to the next multiple of four. -/
structure Bytes.Pads (offset : Nat) (bs : Bytes) : Prop where
  few : bs.length < 4
  aligned : (offset + 1 + bs.length) % 4 = 0

/-- A key of a switch before its target. -/
inductive PairSpelled (offset : Nat) : Int32 × Label → Bytes → Prop
  | pair {x : Label} {bs : Bytes} (key : Int32) (target : x.FarSpelled offset bs) :
    PairSpelled offset (key, x) (Bytes.ofU32 key.toUInt32 ++ bs)

/-- The bytes behind the opcode of an instruction at `offset`, by the layout of its operand. -/
inductive Operand.Spelled (offset : Nat) : OperandKind → Operand → Bytes → Prop
  | none : Spelled offset .none .none []
  | byte (value : Int8) : Spelled offset .signedByte (.byte value) [value.toUInt8]
  | arrayType (code : UInt8) : Spelled offset .unsignedByte (.arrayType code) [code]
  | short (value : Int16) :
    Spelled offset .signedShort (.short value) (Bytes.ofU16 value.toUInt16)
  | local (index : UInt8) : Spelled offset .local (.local index.toUInt16) [index]
  | increment (index : UInt8) (delta : Int8) :
    Spelled offset .increment (.increment index.toUInt16 delta.toInt16) [index, delta.toUInt8]
  | constant1 (index : UInt8) : Spelled offset .constant1 (.constant index.toUInt16) [index]
  | constant2 (index : UInt16) :
    Spelled offset .constant2 (.constant index) (Bytes.ofU16 index)
  | invokeInterface (index : UInt16) (count ignored : UInt8) :
    Spelled offset .invokeInterface (.invokeInterface index count)
      (Bytes.ofU16 index ++ [count, ignored])
  | invokeDynamic (index ignored : UInt16) :
    Spelled offset .invokeDynamic (.invokeDynamic index)
      (Bytes.ofU16 index ++ Bytes.ofU16 ignored)
  | multiArray (index : UInt16) (dimensions : UInt8) :
    Spelled offset .multiArray (.multiArray index dimensions) (Bytes.ofU16 index ++ [dimensions])
  | branch2 {x : Label} (d : Int16) (place : x.IsAt offset d.toInt) :
    Spelled offset .branch2 (.branch x) (Bytes.ofU16 d.toUInt16)
  | branch4 {x : Label} {bs : Bytes} (target : x.FarSpelled offset bs) :
    Spelled offset .branch4 (.branch x) bs
  | tableSwitch {padding first : Bytes} {default : Label} {low high : Int32}
    {targets : List Label} {parts : List Bytes} (padded : padding.Pads offset)
    (otherwise : default.FarSpelled offset first)
    (count : (targets.length : Int) = high.toInt - low.toInt + 1) (ordered : ¬high < low)
    (each : List.Forall₂ (Label.FarSpelled offset) targets parts) :
    Spelled offset .tableSwitch (.tableSwitch default low targets) (padding ++ (first ++
      (Bytes.ofU32 low.toUInt32 ++ (Bytes.ofU32 high.toUInt32 ++ parts.flatten))))
  | lookupSwitch {padding first : Bytes} {default : Label} {count : Int32}
    {pairs : List (Int32 × Label)} {parts : List Bytes} (padded : padding.Pads offset)
    (otherwise : default.FarSpelled offset first) (many : (pairs.length : Int) = count.toInt)
    (each : List.Forall₂ (PairSpelled offset) pairs parts) :
    Spelled offset .lookupSwitch (.lookupSwitch default pairs)
      (padding ++ (first ++ (Bytes.ofU32 count.toUInt32 ++ parts.flatten)))

/-! ## Instructions -/

/-- What stands behind `wide`. -/
inductive Instruction.WideSpelled : Instruction → Bytes → Prop
  | local {op : Opcode} (kind : op.operandKind = .local) (index : UInt16) :
    WideSpelled ⟨op, .local index⟩ (op.byte :: Bytes.ofU16 index)
  | increment {op : Opcode} (kind : op.operandKind = .increment) (index : UInt16) (delta : Int16) :
    WideSpelled ⟨op, .increment index delta⟩
      (op.byte :: (Bytes.ofU16 index ++ Bytes.ofU16 delta.toUInt16))

/-- The bytes of an instruction at `offset`. -/
inductive Instruction.Spelled (offset : Nat) : Instruction → Bytes → Prop
  | plain {op : Opcode} {operand : Operand} {bs : Bytes} (narrow : op.operandKind ≠ .wide)
    (spelled : operand.Spelled offset op.operandKind bs) :
    Spelled offset ⟨op.narrow, operand⟩ (op.byte :: bs)
  | wide {i : Instruction} {bs : Bytes} (spelled : i.WideSpelled bs) :
    Spelled offset i (Opcode.wide.byte :: bs)

theorem Opcode.eq_of_byte {op op' : Opcode} (same : op.byte = op'.byte) : op = op' := by
  obtain ⟨byte, known⟩ := op
  obtain ⟨byte', known'⟩ := op'
  obtain rfl : byte = byte' := same
  rfl

theorem Opcode.byte_of_ofByte? {byte : UInt8} {op : Opcode} (h : ofByte? byte = some op) :
    op.byte = byte := by
  unfold ofByte? at h
  split at h
  · cases h
    rfl
  · cases h

namespace Instruction

variable {offset : Nat} {i : Instruction} {op : Opcode} {bs : Bytes}

theorem wideSpelled_iff : i.WideSpelled (op.byte :: bs) ↔
    (op.operandKind = .local ∧ ∃ index, i = ⟨op, .local index⟩ ∧ bs = Bytes.ofU16 index) ∨
      (op.operandKind = .increment ∧ ∃ (index : UInt16) (delta : Int16),
        i = ⟨op, .increment index delta⟩ ∧
          bs = Bytes.ofU16 index ++ Bytes.ofU16 delta.toUInt16) := by
  constructor
  case mp =>
    generalize byte_eq : op.byte = byte
    intro spelled
    cases spelled with
    | «local» kind index =>
      obtain rfl := Opcode.eq_of_byte byte_eq
      exact .inl ⟨kind, index, rfl, rfl⟩
    | increment kind index delta =>
      obtain rfl := Opcode.eq_of_byte byte_eq
      exact .inr ⟨kind, index, delta, rfl, rfl⟩
  case mpr =>
    rintro (⟨kind, index, rfl, rfl⟩ | ⟨kind, index, delta, rfl, rfl⟩)
    · exact .local kind index
    · exact .increment kind index delta

theorem spelled_iff : i.Spelled offset (op.byte :: bs) ↔
    (op.operandKind ≠ .wide ∧ ∃ operand, i = ⟨op.narrow, operand⟩ ∧
      operand.Spelled offset op.operandKind bs) ∨
        (op.operandKind = .wide ∧ i.WideSpelled bs) := by
  constructor
  case mp =>
    generalize byte_eq : op.byte = byte
    intro spelled
    cases spelled with
    | plain narrow spelled =>
      obtain rfl := Opcode.eq_of_byte byte_eq
      exact .inl ⟨narrow, _, rfl, spelled⟩
    | wide spelled =>
      obtain rfl := Opcode.eq_of_byte byte_eq
      exact .inr ⟨rfl, spelled⟩
  case mpr =>
    rintro (⟨narrow, operand, rfl, spelled⟩ | ⟨kind, spelled⟩)
    · exact .plain narrow spelled
    · obtain rfl := (Opcode.operandKind_iff op).2.2.1 kind
      exact .wide spelled

/-- An instruction begins with a known opcode. -/
theorem WideSpelled.exists_opcode (h : i.WideSpelled bs) :
    ∃ (op : Opcode) (rest : Bytes), bs = op.byte :: rest := by
  cases h <;> exact ⟨_, _, rfl⟩

theorem Spelled.exists_opcode (h : i.Spelled offset bs) :
    ∃ (op : Opcode) (rest : Bytes), bs = op.byte :: rest := by
  cases h <;> exact ⟨_, _, rfl⟩

end Instruction

/-- Bytes from `offset` on that spell the instructions, one behind the other. -/
inductive Located.Spelled : Nat → List Located → Bytes → Prop
  | nil (offset : Nat) : Spelled offset [] []
  | cons {offset : Nat} {i : Instruction} {bs more : Bytes} {rest : List Located}
    (first : i.Spelled offset bs) (behind : Spelled (offset + bs.length) rest more) :
    Spelled offset (⟨offset, i⟩ :: rest) (bs ++ more)

/-! ## Reading -/

namespace Reader.Spells

variable {α : Type} {pos offset : Nat}

/-- What is asked for before it is read changes nothing if it is read anyway. -/
theorem require {r : Reader α} {W : α → Bytes → Prop} {n : Nat} (h : r.Spells pos W)
    (fits : ∀ a bs, W a bs → n ≤ bs.length) : Spells (do Reader.require n; r) pos W where
  takes a bs related := (h.takes a bs related).require (fits a bs related)
  taken rest a s' done := by
    obtain ⟨⟨⟩, s, passed, done⟩ := step_bind_eq_ok.1 done
    unfold Reader.require at passed
    split at passed
    · cases passed
      exact h.taken rest a s' done
    · cases passed

theorem target (distance : Int) :
    (Reader.target offset distance).Spells pos fun x bs => x.IsAt offset distance ∧ bs = [] := by
  unfold Reader.target
  dsimp only
  split
  · rename_i inside
    have number : (UInt32.ofNat ((offset : Int) + distance).toNat).toNat =
        ((offset : Int) + distance).toNat := Nat.mod_eq_of_lt (by omega)
    refine (pure _).congr fun x bs => and_congr_left fun _ => ?_
    constructor
    · rintro rfl
      exact ⟨by simp only [number]; omega, by simp only [number]; omega⟩
    · rintro ⟨place, -⟩
      refine congrArg Label.mk (UInt32.toNat_inj.1 ?_)
      rw [number]
      omega
  · rename_i outside
    refine (throw _).congr fun x bs => ⟨False.elim, ?_⟩
    rintro ⟨⟨place, bound⟩, -⟩
    exact outside (by omega)

theorem farTarget : (Reader.farTarget offset).Spells pos (Label.FarSpelled offset) := by
  refine (i32.next fun d => target d.toInt).congr fun x bs => ?_
  constructor
  · rintro ⟨d, _, ⟨place, rfl⟩, rfl⟩
    rw [List.append_nil]
    exact .distance d place
  · rintro ⟨d, place⟩
    exact ⟨d, [], ⟨place, rfl⟩, (List.append_nil _).symm⟩

theorem pos_answers : Reader.pos.Spells pos fun n bs => n = pos ∧ bs = [] where
  takes := by
    rintro _ _ ⟨rfl, rfl⟩
    exact fun _ => rfl
  taken rest n s' done := by
    cases done
    exact ⟨[], ⟨rfl, rfl⟩, rfl, rfl⟩

theorem align4 : Reader.align4.Spells (offset + 1) fun _ bs => bs.Pads offset := by
  refine (pos_answers.bind fun here _ _ => (bytes ((4 - here % 4) % 4)).map).congr fun _ bs => ?_
  constructor
  · rintro ⟨_, _, _, ⟨rfl, rfl⟩, ⟨found, -, -, length⟩, rfl⟩
    exact ⟨show bs.length < 4 by omega, show (offset + 1 + bs.length) % 4 = 0 by omega⟩
  · rintro ⟨few, aligned⟩
    exact ⟨offset + 1, [], bs, ⟨rfl, rfl⟩, ⟨bs, rfl, rfl, by omega⟩, rfl⟩

/-- A step that is refused under a condition. -/
theorem guarded {c : Prop} [Decidable c] {e : Error} {r : Reader α} {W : α → Bytes → Prop}
    (h : ¬c → r.Spells pos W) :
    Spells (if c then MonadExcept.throw e else r) pos fun a bs => ¬c ∧ W a bs := by
  split
  · rename_i refused
    exact (throw e).congr fun _ _ => ⟨False.elim, fun passed => passed.1 refused⟩
  · rename_i passed
    exact (h passed).congr fun _ _ => ⟨fun related => ⟨passed, related⟩, And.right⟩

theorem length_of_farSpelled {x : Label} {bs : Bytes} (h : x.FarSpelled offset bs) :
    bs.length = 4 := by
  cases h
  rfl

theorem length_of_pairSpelled {p : Int32 × Label} {bs : Bytes} (h : PairSpelled offset p bs) :
    bs.length = 8 := by
  cases h with
  | pair key target =>
    rw [List.length_append, length_of_farSpelled target]
    rfl

/-- Items of one length have that length together. -/
theorem length_flatten {V : α → Bytes → Prop} {k : Nat} (each : ∀ a bs, V a bs → bs.length = k)
    {as : List α} {parts : List Bytes} (h : List.Forall₂ V as parts) :
    parts.flatten.length = as.length * k := by
  induction h with
  | nil => exact (Nat.zero_mul k).symm
  | cons head _ ih =>
    rw [List.flatten_cons, List.length_append, ih, each _ _ head, List.length_cons, Nat.succ_mul,
      Nat.add_comm]

theorem tableSwitch : (Reader.tableSwitch offset).Spells (offset + 1)
    fun o bs => o.Spelled offset .tableSwitch bs := by
  have table (pos : Nat) (default : Label) (low high : Int32) (ordered : ¬high < low) :
      Spells (do
        Reader.require ((high.toInt - low.toInt + 1).toNat * 4)
        return Operand.tableSwitch default low
          (← Reader.times (high.toInt - low.toInt + 1).toNat (Reader.farTarget offset))) pos
      fun o bs => ∃ targets, o = .tableSwitch default low targets ∧
        targets.length = (high.toInt - low.toInt + 1).toNat ∧
          ∃ parts, List.Forall₂ (Label.FarSpelled offset) targets parts ∧ bs = parts.flatten := by
    refine (times (fun _ => farTarget) _).map.require ?_
    rintro _ _ ⟨targets, -, count, parts, each, rfl⟩
    exact Nat.le_of_eq (count ▸ (length_flatten (fun _ _ => length_of_farSpelled) each).symm)
  refine (align4.bind fun _ padding _ => farTarget.bind fun default first _ => i32.next fun low =>
    i32.next fun high => guarded (table _ default low high)).congr fun o bs => ?_
  constructor
  · rintro ⟨_, padding, _, padded, ⟨default, first, _, otherwise, ⟨low, _, ⟨high, _, ⟨ordered,
      targets, rfl, count, parts, each, rfl⟩, rfl⟩, rfl⟩, rfl⟩, rfl⟩
    have ordered' := Int32.le_iff_toInt_le.1 (Int32.not_lt.1 ordered)
    exact .tableSwitch padded otherwise (by omega) ordered each
  · intro spelled
    cases spelled with
    | tableSwitch padded otherwise count ordered each =>
      exact ⟨(), _, _, padded, ⟨_, _, _, otherwise, ⟨_, _, ⟨_, _, ⟨ordered, _, rfl, by omega, _,
        each, rfl⟩, rfl⟩, rfl⟩, rfl⟩, rfl⟩

theorem pair : Spells (do return (← Reader.i32, ← Reader.farTarget offset)) pos
    (PairSpelled offset) := by
  refine (i32.next fun key => farTarget.map).congr fun p bs => ?_
  constructor
  · rintro ⟨key, _, ⟨x, rfl, target⟩, rfl⟩
    exact .pair key target
  · rintro ⟨key, target⟩
    exact ⟨key, _, ⟨_, rfl, target⟩, rfl⟩

theorem lookupSwitch : (Reader.lookupSwitch offset).Spells (offset + 1)
    fun o bs => o.Spelled offset .lookupSwitch bs := by
  have table (pos : Nat) (default : Label) (count : Int32) (counted : ¬count < 0) :
      Spells (do
        Reader.require (count.toInt.toNat * 8)
        return Operand.lookupSwitch default (← Reader.times count.toInt.toNat
          (do return (← Reader.i32, ← Reader.farTarget offset)))) pos
      fun o bs => ∃ pairs, o = .lookupSwitch default pairs ∧ pairs.length = count.toInt.toNat ∧
        ∃ parts, List.Forall₂ (PairSpelled offset) pairs parts ∧ bs = parts.flatten := by
    refine (times (fun _ => pair) _).map.require ?_
    rintro _ _ ⟨pairs, -, many, parts, each, rfl⟩
    exact Nat.le_of_eq (many ▸ (length_flatten (fun _ _ => length_of_pairSpelled) each).symm)
  refine (align4.bind fun _ padding _ => farTarget.bind fun default first _ => i32.next fun count =>
    guarded (table _ default count)).congr fun o bs => ?_
  have negative (count : Int32) : count < 0 ↔ count.toInt < 0 := Int32.lt_iff_toInt_lt
  constructor
  · rintro ⟨_, padding, _, padded, ⟨default, first, _, otherwise, ⟨count, _, ⟨counted, pairs, rfl,
      many, parts, each, rfl⟩, rfl⟩, rfl⟩, rfl⟩
    rw [negative] at counted
    exact .lookupSwitch padded otherwise (by omega) each
  · intro spelled
    cases spelled with
    | lookupSwitch padded otherwise many each =>
      refine ⟨(), _, _, padded, ⟨_, _, _, otherwise, ⟨_, _, ⟨?_, _, rfl, by omega, _, each, rfl⟩,
        rfl⟩, rfl⟩, rfl⟩
      rw [negative]
      omega

/-- A number that is the whole operand. -/
theorem number {kind : OperandKind} {x : Reader α} {f : α → Operand} {bytes : α → Bytes}
    (h : x.Spells pos fun v bs => bs = bytes v) (spells : ∀ v, (f v).Spelled offset kind (bytes v))
    (only : ∀ o bs, o.Spelled offset kind bs → ∃ v, o = f v ∧ bs = bytes v) :
    Spells (do return f (← x)) pos fun o bs => o.Spelled offset kind bs := by
  refine h.map.congr fun o bs => ?_
  constructor
  · rintro ⟨v, rfl, rfl⟩
    exact spells v
  · exact only o bs

/-- The operand of an opcode is spelled as its layout says. -/
theorem operand {kind : OperandKind} (narrow : kind ≠ .wide) :
    (Reader.operand offset kind).Spells (offset + 1) fun o bs => o.Spelled offset kind bs := by
  cases kind with
  | wide => exact absurd rfl narrow
  | none =>
    refine (pure Operand.none).congr fun o bs => ?_
    constructor
    · rintro ⟨rfl, rfl⟩
      exact .none
    · rintro ⟨⟩
      exact ⟨rfl, rfl⟩
  | signedByte =>
    refine number i8 .byte ?_
    rintro _ _ ⟨⟩
    exact ⟨_, rfl, rfl⟩
  | unsignedByte =>
    refine number u8 .arrayType ?_
    rintro _ _ ⟨⟩
    exact ⟨_, rfl, rfl⟩
  | signedShort =>
    refine number i16 .short ?_
    rintro _ _ ⟨⟩
    exact ⟨_, rfl, rfl⟩
  | «local» =>
    refine number u8 .local ?_
    rintro _ _ ⟨⟩
    exact ⟨_, rfl, rfl⟩
  | increment =>
    refine (u8.next fun index => i8.map).congr fun o bs => ?_
    constructor
    · rintro ⟨index, _, ⟨delta, rfl, rfl⟩, rfl⟩
      exact .increment index delta
    · rintro ⟨⟩
      exact ⟨_, _, ⟨_, rfl, rfl⟩, rfl⟩
  | constant1 =>
    refine number u8 .constant1 ?_
    rintro _ _ ⟨⟩
    exact ⟨_, rfl, rfl⟩
  | constant2 =>
    refine number u16 .constant2 ?_
    rintro _ _ ⟨⟩
    exact ⟨_, rfl, rfl⟩
  | invokeInterface =>
    refine (u16.next fun index => u8.next fun count => u8.next fun ignored =>
      pure (Operand.invokeInterface index count)).congr fun o bs => ?_
    constructor
    · rintro ⟨index, _, ⟨count, _, ⟨ignored, _, ⟨rfl, rfl⟩, rfl⟩, rfl⟩, rfl⟩
      exact .invokeInterface index count ignored
    · rintro ⟨⟩
      exact ⟨_, _, ⟨_, _, ⟨_, _, ⟨rfl, rfl⟩, rfl⟩, rfl⟩, rfl⟩
  | invokeDynamic =>
    refine (u16.next fun index => u16.next fun ignored =>
      pure (Operand.invokeDynamic index)).congr fun o bs => ?_
    constructor
    · rintro ⟨index, _, ⟨ignored, _, ⟨rfl, rfl⟩, rfl⟩, rfl⟩
      exact .invokeDynamic index ignored
    · rintro ⟨⟩
      exact ⟨_, _, ⟨_, _, ⟨rfl, rfl⟩, rfl⟩, rfl⟩
  | multiArray =>
    refine (u16.next fun index => u8.map).congr fun o bs => ?_
    constructor
    · rintro ⟨index, _, ⟨dimensions, rfl, rfl⟩, rfl⟩
      exact .multiArray index dimensions
    · rintro ⟨⟩
      exact ⟨_, _, ⟨_, rfl, rfl⟩, rfl⟩
  | branch2 =>
    refine (i16.next fun d => (target d.toInt).map).congr fun o bs => ?_
    constructor
    · rintro ⟨d, _, ⟨x, rfl, place, rfl⟩, rfl⟩
      exact .branch2 d place
    · intro spelled
      cases spelled with
      | branch2 d place => exact ⟨d, [], ⟨_, rfl, place, rfl⟩, rfl⟩
  | branch4 =>
    refine farTarget.map.congr fun o bs => ?_
    constructor
    · rintro ⟨x, rfl, target⟩
      exact .branch4 target
    · intro spelled
      cases spelled with
      | branch4 target => exact ⟨_, rfl, target⟩
  | tableSwitch => exact tableSwitch
  | lookupSwitch => exact lookupSwitch

/-- A byte that has to be the one of an opcode, and what follows it. -/
theorem opcode {W : α → Bytes → Prop} {f : UInt8 → Reader α} {e : UInt8 → Error}
    (unknown : ∀ byte, Opcode.ofByte? byte = none → f byte = MonadExcept.throw (e byte))
    (known : ∀ op : Opcode, (f op.byte).Spells (pos + 1) fun a bs => W a (op.byte :: bs))
    (begins : ∀ a bs, W a bs → ∃ (op : Opcode) (rest : Bytes), bs = op.byte :: rest) :
    Spells (Reader.u8 >>= f) pos W := by
  refine (u8.next (W := fun byte a bs => W a (byte :: bs)) fun byte => ?_).congr fun a bs => ?_
  · cases found : Opcode.ofByte? byte with
    | none =>
      rw [unknown byte found]
      refine (throw (e byte)).congr fun a bs => ⟨False.elim, fun related => ?_⟩
      obtain ⟨op, rest, same⟩ := begins a _ related
      cases same
      cases (Opcode.ofByte?_byte op).symm.trans found
    | some op =>
      obtain rfl := Opcode.byte_of_ofByte? found
      exact known op
  · constructor
    · rintro ⟨byte, bs, related, rfl⟩
      exact related
    · intro related
      obtain ⟨op, rest, rfl⟩ := begins a bs related
      exact ⟨op.byte, rest, related, rfl⟩

theorem wideInstruction :
    (Reader.wideInstruction offset).Spells pos Instruction.WideSpelled := by
  refine opcode (e := fun byte => .malformed (.wideOpcode byte offset))
    (fun byte unknown => by simp only [unknown]) (fun op => ?_)
    fun _ _ => Instruction.WideSpelled.exists_opcode
  simp only [Opcode.ofByte?_byte]
  split
  · rename_i kind
    refine u16.map.congr fun i bs => ?_
    rw [Instruction.wideSpelled_iff, kind]
    simp
  · rename_i kind
    refine (u16.next fun index => i16.map).congr fun i bs => ?_
    rw [Instruction.wideSpelled_iff, kind]
    constructor
    · rintro ⟨index, _, ⟨delta, rfl, rfl⟩, rfl⟩
      exact .inr ⟨rfl, index, delta, rfl, rfl⟩
    · rintro (⟨⟨⟩, -⟩ | ⟨-, index, delta, rfl, rfl⟩)
      exact ⟨index, _, ⟨delta, rfl, rfl⟩, rfl⟩
  · rename_i neither neither'
    refine (throw _).congr fun i bs => ⟨False.elim, fun spelled => ?_⟩
    rcases Instruction.wideSpelled_iff.1 spelled with ⟨kind, -⟩ | ⟨kind, -⟩
    · exact neither kind
    · exact neither' kind

/-- Instructions are read just as they are spelled. -/
theorem instruction (offset : Nat) :
    (Instruction.read offset).Spells offset (Instruction.Spelled offset) := by
  refine opcode (e := fun byte => .malformed (.opcode byte offset))
    (fun byte unknown => by simp only [unknown]) (fun op => ?_)
    fun _ _ => Instruction.Spelled.exists_opcode
  simp only [Opcode.ofByte?_byte]
  split
  · rename_i kind
    refine wideInstruction.congr fun i bs => ?_
    rw [Instruction.spelled_iff]
    exact ⟨fun spelled => .inr ⟨kind, spelled⟩, fun spelled => spelled.resolve_left (·.1 kind) |>.2⟩
  · rename_i narrow
    refine (operand narrow).map.congr fun i bs => ?_
    rw [Instruction.spelled_iff]
    exact ⟨fun spelled => .inl ⟨narrow, spelled⟩,
      fun spelled => spelled.resolve_right (narrow ·.1) |>.2⟩

end Reader.Spells

/-! ## Code -/

namespace Located

variable {located : List Located} {offset : Nat} {bs : Bytes}

theorem Spelled.length_pos {i : Instruction} (h : i.Spelled offset bs) : 0 < bs.length := by
  obtain ⟨op, rest, rfl⟩ := h.exists_opcode
  exact Nat.succ_pos _

theorem readAll_of_spelled (h : Located.Spelled offset located bs) {fuel : Nat}
    (enough : bs.length ≤ fuel) (acc : List Located) :
    readAll fuel acc ⟨offset, bs⟩ = .ok (acc.reverse ++ located) ⟨offset + bs.length, []⟩ := by
  induction h generalizing fuel acc with
  | nil offset =>
    rw [List.append_nil]
    cases fuel <;> rfl
  | @cons offset i bs more rest first behind ih =>
    have some_bytes := Spelled.length_pos first
    rw [List.length_append] at enough ⊢
    obtain ⟨fuel, rfl⟩ : ∃ n, fuel = n + 1 := Nat.exists_eq_add_one.2 (by omega)
    have left : Reader.hasMore ⟨offset, bs ++ more⟩ = .ok true ⟨offset, bs ++ more⟩ := by
      cases bs with
      | nil => cases some_bytes
      | cons b bs => rfl
    have read := (Reader.Spells.instruction offset).takes i bs first more
    have fits : more.length ≤ fuel := by omega
    have behind := ih fits (⟨offset, i⟩ :: acc)
    rw [List.reverse_cons, List.append_assoc] at behind
    rw [readAll, step_bind_ok left]
    exact (step_bind_ok (rfl : Reader.pos _ = .ok offset _)).trans
      ((step_bind_ok read).trans (by rw [behind, Nat.add_assoc]; rfl))

/-- The instructions of code are read just if its bytes spell them, from the first to the last. -/
theorem ofBytes_eq_ok_iff {code : Bytes} :
    ofBytes code = .ok located ↔ Located.Spelled 0 located code := by
  constructor
  case mp =>
    refine ofBytes_rule (P := fun offset bs more => Located.Spelled offset more bs) .nil ?_
    intro offset bs i pos left more read behind
    obtain ⟨xs, first, front, moved⟩ := (Reader.Spells.instruction offset).taken bs i _ read
    obtain rfl : pos = offset + xs.length := moved
    obtain rfl : bs = xs ++ left := front
    exact .cons first behind
  case mpr =>
    intro spelled
    have read := readAll_of_spelled spelled (Nat.le_refl _) []
    exact Reader.Ends.parse ⟨_, read⟩

end Located

end Weft
