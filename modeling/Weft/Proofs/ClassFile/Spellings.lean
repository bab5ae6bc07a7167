import Weft.Proofs.Bytes.Consuming
import Weft.Proofs.ClassFile.WellFormed

/-!
# Spellings of images

Images may spell the texts of their pools, and the flags of the marks in them, in more than one way,
and whatever spelling an image chooses is accepted. Everything else is spelled in one way only. So
the image that is written of a class file is the one that it was read from exactly if that image
spells texts and flags as they are written.
-/

namespace Weft

/-- What may stand in an image for a text and for a flag. -/
structure Spelling where
  text : String → Bytes → Prop
  flag : Bool → UInt8 → Prop

namespace Spelling

/-- Whatever is accepted. -/
def accepted : Spelling where
  text text bs := Text.decodeModified bs = .ok text
  flag raised b := (b != 0) = raised

/-- What is written. -/
def written : Spelling where
  text text bs := bs = Text.encodeModified text
  flag raised b := b = if raised then 1 else 0

/-- What is written is accepted. -/
theorem text_accepted {text : String} {bs : Bytes} (h : written.text text bs) :
    accepted.text text bs := by
  rw [show bs = _ from h]
  exact Text.decodeModified_encodeModified text

theorem flag_accepted {raised : Bool} {b : UInt8} (h : written.flag raised b) :
    accepted.flag raised b := by
  rw [show b = _ from h]
  cases raised <;> rfl

/-- Not all that is accepted is written: a zero byte stands for the character zero, and any byte
other than zero for a raised flag. -/
theorem accepted_unwritten : (∃ text bs, accepted.text text bs ∧ ¬ written.text text bs) ∧
    ∃ raised b, accepted.flag raised b ∧ ¬ written.flag raised b := by
  refine ⟨⟨String.ofList ['\x00'], [0], by rfl, ?_⟩, true, 2, rfl, ?_⟩
  · exact (by decide +kernel : ¬ [0] = Text.encodeModified (String.ofList ['\x00']))
  · exact (by decide : ¬ (2 : UInt8) = 1)

end Spelling

variable {σ : Spelling} {options : DecodeOptions}

/-! ## Pools -/

namespace Constant

/-- The bytes are those of the constant, behind its tag. -/
def Spelled (σ : Spelling) : Constant → Bytes → Prop
  | .utf8 text, bs => ∃ encoded, σ.text text encoded ∧ encoded.length < 65536 ∧
      bs = 1 :: Bytes.ofU16 (UInt16.ofNat encoded.length) ++ encoded
  | c, bs => Pool.constantBytes c = .ok bs

theorem spelled_written {c : Constant} {bs : Bytes} :
    c.Spelled .written bs ↔ Pool.constantBytes c = .ok bs := by
  cases c with
  | utf8 text =>
    simp only [Pool.constantBytes]
    constructor
    · rintro ⟨encoded, rfl, short, rfl⟩
      exact if_pos short
    · intro h
      split at h
      · rename_i short
        cases h
        exact ⟨_, rfl, short, rfl⟩
      · cases h
  | _ => exact Iff.rfl

end Constant

theorem Reader.Consumes.text : Reader.text.Consumes fun text bs => ∃ encoded,
    Spelling.accepted.text text encoded ∧ encoded.length < 65536 ∧
      bs = Bytes.ofU16 (UInt16.ofNat encoded.length) ++ encoded := by
  refine .bind .u16 fun n xs number => .bind (.bytes n.toNat) fun encoded ys ⟨same, length⟩ => ?_
  split
  · rename_i text decoded
    refine .pure ⟨encoded, decoded, length ▸ n.toNat_lt, ?_⟩
    rw [number, same, length, UInt16.ofNat_toNat, List.append_nil]
  · exact .throw

namespace Pool

/-- The bytes are those of the pool, slot by slot. -/
structure Spelled (σ : Spelling) (p : Pool) (bs : Bytes) : Prop where
  few : p.size < 65536
  parts : ∃ parts, List.Forall₂ (Constant.Spelled σ) p.entries.toList parts ∧
    bs = Bytes.ofU16 (UInt16.ofNat p.size) ++ parts.flatten

theorem spelled_written {p : Pool} {bs : Bytes} : p.Spelled .written bs ↔ p.write = .ok bs := by
  have same : Constant.Spelled .written = fun c bs => constantBytes c = .ok bs :=
    funext fun c => funext fun bs => propext Constant.spelled_written
  unfold write
  constructor
  · rintro ⟨few, parts, each, rfl⟩
    rw [if_pos few]
    exact except_map_eq_ok.2 ⟨parts, except_mapM_eq_ok.2 (same ▸ each), rfl⟩
  · intro h
    split at h
    · rename_i few
      obtain ⟨parts, each, rfl⟩ := except_map_eq_ok.1 h
      exact ⟨few, parts, same ▸ except_mapM_eq_ok.1 each, rfl⟩
    · cases h

theorem consumes_readConstant (tag : UInt8) (index : Nat) :
    (readConstant tag index).Consumes fun c bs => c.Spelled .accepted (tag :: bs) := by
  unfold readConstant
  split
  case h_1 =>
    refine .map (Reader.Consumes.text.mono fun text bs ⟨encoded, decoded, short, same⟩ => ?_)
    exact ⟨encoded, decoded, short, congrArg _ same⟩
  case h_2 => exact .map (Reader.Consumes.i32.mono fun v bs same => same ▸ rfl)
  case h_3 => exact .map (Reader.Consumes.u32.mono fun v bs same => same ▸ rfl)
  case h_4 => exact .map (Reader.Consumes.i64.mono fun v bs same => same ▸ rfl)
  case h_5 => exact .map (Reader.Consumes.u64.mono fun v bs same => same ▸ rfl)
  case h_12 =>
    exact .bind .u8 fun kind xs first => .map (Reader.Consumes.u16.mono fun v bs second =>
      first ▸ second ▸ rfl)
  case h_18 => exact .throw
  case h_8 | h_9 | h_10 | h_11 | h_14 | h_15 =>
    exact .bind .u16 fun a xs first => .map (Reader.Consumes.u16.mono fun b bs second =>
      first ▸ second ▸ rfl)
  all_goals exact .map (Reader.Consumes.u16.mono fun v bs same => same ▸ rfl)

theorem consumes_fill (count fuel : Nat) (p : Pool) : (fill count fuel p).Consumes fun q bs =>
    ∃ more parts, q.entries.toList = p.entries.toList ++ more ∧
      List.Forall₂ (Constant.Spelled .accepted) more parts ∧ bs = parts.flatten := by
  induction fuel generalizing p with
  | zero => exact .pure ⟨[], [], by simp, .nil, rfl⟩
  | succ fuel ih =>
    unfold fill
    split
    · refine .bind .u8 fun tag xs first => .bind (consumes_readConstant tag p.size) ?_
      intro c ys spelled
      refine (ih (p.push c).2).mono ?_
      rintro q zs ⟨more, parts, entries, each, rfl⟩
      rw [entries_push, List.append_assoc] at entries
      have whole : xs ++ (ys ++ parts.flatten) = ((tag :: ys) :: parts).flatten := by
        rw [first]
        rfl
      rw [slots_singleton] at entries
      split at entries
      · refine ⟨_, (tag :: ys) :: [] :: parts, entries, .cons spelled (.cons rfl each), ?_⟩
        rw [whole]
        rfl
      · exact ⟨_, (tag :: ys) :: parts, entries, .cons spelled each, whole⟩
    · exact .pure ⟨[], [], by simp, .nil, rfl⟩

theorem consumes_read : read.Consumes (Spelled .accepted) := by
  unfold read
  refine .bind .u16 fun count xs number => ?_
  split
  · exact .throw
  · refine .bind (consumes_fill _ _ _) fun p ys ⟨more, parts, entries, each, same⟩ => ?_
    split
    · exact .throw
    · rename_i full
      have size : p.size = count.toNat := by simpa using full
      refine .pure ⟨size ▸ count.toNat_lt, [] :: parts, entries ▸ .cons rfl each, ?_⟩
      rw [number, same, size, UInt16.ofNat_toNat, List.append_nil]
      rfl

end Pool

/-! ## Tables -/

namespace Reader.Consumes

theorem tableBytes {α : Type} {r : Reader α} {f : α → Bytes}
    (item : r.Consumes fun a bs => bs = f a) :
    (Reader.table r).Consumes fun as bs => Weft.tableBytes f as = .ok bs :=
  (table item).mono fun _ _ => tableBytes_eq_ok.2

theorem blockBytes (cause : Unsupported) :
    Reader.block.Consumes fun block bs => Weft.blockBytes cause block = .ok bs := by
  refine .bind .u32 fun n xs number => (bytes n.toNat).mono fun block ys ⟨same, length⟩ => ?_
  rw [number, same, Weft.blockBytes, length, UInt32.ofNat_toNat]
  exact if_pos n.toNat_lt

end Reader.Consumes

/-! ## Annotations -/

namespace ElementValue

theorem consumes_named {limit levels : Nat}
    (ih : (read limit levels).Consumes fun v bs => bs = v.write) :
    (Reader.table (do return (← Reader.u16, ← read limit levels))).Consumes fun elements bs =>
      bs = Bytes.ofCount elements.length ++ writeNamed elements := by
  have item : Reader.Consumes (do return (← Reader.u16, ← read limit levels))
      fun e bs => bs = Bytes.ofU16 e.1 ++ e.2.write :=
    .bind .u16 fun name xs first => .map (ih.mono fun v ys second => by rw [first, second])
  refine (Reader.Consumes.table item).mono ?_
  rintro elements bs ⟨-, parts, each, rfl⟩
  rw [writeNamed_eq, forall₂_eq_map.1 each]
  rfl

/-- The tag that stands for a character. -/
theorem tag_of_char {tag : UInt8} {c : Char} (h : Char.ofNat tag.toNat = c) :
    tag = c.toUInt8 := by
  subst h
  have code : (Char.ofNat tag.toNat).val.toNat = tag.toNat := Bytes.toNat_char tag
  refine UInt8.toNat_inj.1 ?_
  rw [Char.toUInt8, UInt32.toNat_toUInt8, code]
  exact (Nat.mod_eq_of_lt tag.toNat_lt).symm

theorem consumes_read (limit levels : Nat) :
    (read limit levels).Consumes fun v bs => bs = v.write := by
  induction levels with
  | zero => exact .throw
  | succ levels ih =>
    unfold read
    refine .bind .u8 fun tag xs first => ?_
    rw [first]
    split
    · exact .map (Reader.Consumes.u16.mono fun index ys second => by rw [second]; rfl)
    · generalize character : Char.ofNat tag.toNat = c
      split
      all_goals try rw [tag_of_char character]
      · exact .bind .u16 fun a ys second => .map (Reader.Consumes.u16.mono fun b zs third => by
          rw [second, third]; rfl)
      · exact .map (Reader.Consumes.u16.mono fun index ys second => by rw [second]; rfl)
      · refine .bind .u16 fun type ys second =>
          .map ((consumes_named ih).mono fun elements zs third => ?_)
        rw [second, third]
        rfl
      · refine .map ((Reader.Consumes.table ih).mono ?_)
        rintro items ys ⟨-, parts, each, rfl⟩
        rw [forall₂_eq_map.1 each, ← writeList_eq]
        rfl
      · exact .throw

end ElementValue

theorem AnnotationData.consumes_read (limit : Nat) :
    (read limit).Consumes fun a bs => bs = a.write :=
  .bind .u16 fun type xs first =>
    .map ((ElementValue.consumes_named (ElementValue.consumes_read limit limit)).mono
      fun elements ys second => by rw [first, second]; rfl)

/-! ## Attributes -/

theorem ExceptionEntry.consumes : Reader.Consumes (do
    return ExceptionEntry.mk (← Reader.u16) (← Reader.u16) (← Reader.u16) (← Reader.u16))
    fun e bs => bs = e.write :=
  .bind .u16 fun _ _ first => .bind .u16 fun _ _ second => .bind .u16 fun _ _ third =>
    .map (Reader.Consumes.u16.mono fun _ _ fourth => by
      rw [first, second, third, fourth]; rfl)

theorem MethodParameter.consumes :
    Reader.Consumes (do return MethodParameter.mk (← Reader.u16) (← Reader.u16))
      fun p bs => bs = p.write :=
  .bind .u16 fun _ _ first => .map (Reader.Consumes.u16.mono fun _ _ second => by
    rw [first, second]; rfl)

theorem InnerClass.consumes : Reader.Consumes (do
    return InnerClass.mk (← Reader.u16) (← Reader.u16) (← Reader.u16) ⟨← Reader.u16⟩)
    fun c bs => bs = c.write :=
  .bind .u16 fun _ _ first => .bind .u16 fun _ _ second => .bind .u16 fun _ _ third =>
    .map (Reader.Consumes.u16.mono fun _ _ fourth => by
      rw [first, second, third, fourth]; rfl)

theorem LineNumber.consumes :
    Reader.Consumes (do return LineNumber.mk (← Reader.u16) (← Reader.u16))
      fun l bs => bs = l.write :=
  .bind .u16 fun _ _ first => .map (Reader.Consumes.u16.mono fun _ _ second => by
    rw [first, second]; rfl)

theorem LocalVariable.consumes : Reader.Consumes (do
    return LocalVariable.mk (← Reader.u16) (← Reader.u16) (← Reader.u16) (← Reader.u16)
      (← Reader.u16)) fun v bs => bs = v.write :=
  .bind .u16 fun _ _ first => .bind .u16 fun _ _ second => .bind .u16 fun _ _ third =>
    .bind .u16 fun _ _ fourth => .map (Reader.Consumes.u16.mono fun _ _ fifth => by
      rw [first, second, third, fourth, fifth]; rfl)

mutual

/-- The bytes are those of the attribute. -/
def Attribute.Spelled (σ : Spelling) : Attribute → Bytes → Prop
  | ⟨name, body⟩, bs => ∃ block sized, body.Spelled σ block ∧
      blockBytes .attributeSize block = .ok sized ∧ bs = Bytes.ofU16 name ++ sized

/-- The bytes are those of the body: but for a mark's flag, and what is in code, those that are
written. -/
def AttributeBody.Spelled (σ : Spelling) : AttributeBody → Bytes → Prop
  | .code c, bs => c.Spelled σ bs
  | .woven stamp, bs => ∃ b, σ.flag stamp.modified b ∧ bs = Bytes.ofU16 stamp.injector ++ [b]
  | body, bs => body.write = .ok bs

/-- The bytes are those of the code of a method. -/
def CodeAttribute.Spelled (σ : Spelling) : CodeAttribute → Bytes → Prop
  | ⟨maxStack, maxLocals, code, exceptions, attributes⟩, bs => ∃ sized handlers parts,
      blockBytes .codeSize code = .ok sized ∧
      tableBytes ExceptionEntry.write exceptions = .ok handlers ∧ attributes.length < 65536 ∧
      SpelledEach σ attributes parts ∧
      bs = Bytes.ofU16 maxStack ++ (Bytes.ofU16 maxLocals ++ (sized ++ (handlers ++
        (Bytes.ofU16 (UInt16.ofNat attributes.length) ++ parts.flatten))))

/-- The parts are the bytes of the attributes. -/
def SpelledEach (σ : Spelling) : List Attribute → List Bytes → Prop
  | [], parts => parts = []
  | a :: as, parts => ∃ first rest, a.Spelled σ first ∧ SpelledEach σ as rest ∧
      parts = first :: rest

end

theorem spelledEach_iff {attributes : List Attribute} {parts : List Bytes} :
    SpelledEach σ attributes parts ↔ List.Forall₂ (Attribute.Spelled σ) attributes parts := by
  induction attributes generalizing parts with
  | nil => simp [SpelledEach]
  | cons a as ih =>
    rw [SpelledEach, List.forall₂_cons_left_iff]
    constructor
    · rintro ⟨first, rest, head, tail, rfl⟩
      exact ⟨first, rest, head, ih.1 tail, rfl⟩
    · rintro ⟨first, rest, head, tail, rfl⟩
      exact ⟨first, rest, head, ih.2 tail, rfl⟩

theorem CodeAttribute.spelled_iff {c : CodeAttribute} {bs : Bytes} : c.Spelled σ bs ↔
    ∃ code exceptions table, blockBytes .codeSize c.code = .ok code ∧
      tableBytes ExceptionEntry.write c.exceptions = .ok exceptions ∧
        Tabled (Attribute.Spelled σ) c.attributes table ∧
          bs = Bytes.ofU16 c.maxStack ++ (Bytes.ofU16 c.maxLocals ++ (code ++
            (exceptions ++ table))) := by
  obtain ⟨maxStack, maxLocals, code, exceptions, attributes⟩ := c
  rw [CodeAttribute.Spelled]
  constructor
  · rintro ⟨code, exceptions, parts, coded, caught, few, each, rfl⟩
    exact ⟨code, exceptions, _, coded, caught, ⟨few, parts, spelledEach_iff.1 each, rfl⟩, rfl⟩
  · rintro ⟨code, exceptions, table, coded, caught, ⟨few, parts, each, rfl⟩, rfl⟩
    exact ⟨code, exceptions, parts, coded, caught, few, spelledEach_iff.2 each, rfl⟩

mutual

theorem Attribute.spelled_written : ∀ (a : Attribute) (bs : Bytes),
    a.Spelled .written bs ↔ a.write = .ok bs
  | ⟨name, body⟩, bs => by
    rw [Attribute.Spelled, Attribute.write]
    constructor
    · rintro ⟨block, sized, spelled, fits, rfl⟩
      exact except_bind_eq_ok.2 ⟨block, (body.spelled_written block).1 spelled,
        except_map_eq_ok.2 ⟨sized, fits, rfl⟩⟩
    · intro h
      obtain ⟨block, written, h⟩ := except_bind_eq_ok.1 h
      obtain ⟨sized, fits, rfl⟩ := except_map_eq_ok.1 h
      exact ⟨block, sized, (body.spelled_written block).2 written, fits, rfl⟩

theorem AttributeBody.spelled_written : ∀ (body : AttributeBody) (bs : Bytes),
    body.Spelled .written bs ↔ body.write = .ok bs
  | .code c, bs => c.spelled_written bs
  | .woven stamp, bs => by
    constructor
    · rintro ⟨b, rfl, rfl⟩
      rfl
    · intro h
      cases h
      exact ⟨_, rfl, rfl⟩
  | .constantValue _, _ | .exceptions _, _ | .signature _, _ | .sourceFile _, _
  | .methodParameters _, _ | .annotations .., _ | .parameterAnnotations .., _
  | .innerClasses _, _ | .enclosingMethod .., _ | .nestHost _, _ | .nestMembers _, _
  | .lineNumberTable _, _ | .localVariableTable _, _ | .raw _, _ => Iff.rfl

theorem CodeAttribute.spelled_written : ∀ (c : CodeAttribute) (bs : Bytes),
    c.Spelled .written bs ↔ c.write = .ok bs
  | ⟨maxStack, maxLocals, code, exceptions, attributes⟩, bs => by
    have same (a : Attribute) (mem : a ∈ attributes) (part : Bytes) :
        a.Spelled .written part ↔ a.write = .ok part := spelled_written_of_mem attributes a mem part
    rw [CodeAttribute.spelled_iff, Attribute.codeBytes_eq_ok]
    constructor
    · rintro ⟨code, exceptions, table, coded, caught, each, rfl⟩
      refine ⟨code, exceptions, table, coded, caught, Attribute.tableBytes_eq_ok.2 ?_, rfl⟩
      exact each.imp fun a mem part _ => (same a mem part).1
    · rintro ⟨code, exceptions, table, coded, caught, attached, rfl⟩
      refine ⟨code, exceptions, table, coded, caught, ?_, rfl⟩
      exact (Attribute.tableBytes_eq_ok.1 attached).imp fun a mem part _ => (same a mem part).2

theorem spelled_written_of_mem : ∀ attributes : List Attribute,
    ∀ a ∈ attributes, ∀ bs : Bytes, a.Spelled .written bs ↔ a.write = .ok bs
  | [] => fun _ mem => nomatch mem
  | b :: rest => by
    intro a mem
    rcases List.mem_cons.1 mem with same | mem
    · rw [same]
      exact b.spelled_written
    · exact spelled_written_of_mem rest a mem

end

namespace Attribute

theorem tabled_spelled {attributes : List Attribute} {bs : Bytes} :
    Tabled (Spelled .written) attributes bs ↔ attributeTableBytes attributes = .ok bs := by
  rw [tableBytes_eq_ok]
  exact ⟨fun h => h.imp fun a _ part _ => (a.spelled_written part).1,
    fun h => h.imp fun a _ part _ => (a.spelled_written part).2⟩

theorem consumes_methodParameters : Reader.Consumes (do
    return AttributeBody.methodParameters (← Reader.times (← Reader.u8).toNat do
      return ⟨← Reader.u16, ← Reader.u16⟩)) (AttributeBody.Spelled .accepted) := by
  refine .bind .u8 fun n xs first =>
    .map ((Reader.Consumes.times MethodParameter.consumes _).mono ?_)
  rintro parameters ys ⟨length, parts, each, rfl⟩
  show (if parameters.length < 256 then _ else _) = _
  rw [if_pos (length ▸ n.toNat_lt), first, forall₂_eq_map.1 each, ← List.flatMap_def, length,
    UInt8.ofNat_toNat]
  rfl

theorem consumes_parameterAnnotations {limit : Nat} {visible : Bool} : Reader.Consumes (do
    return AttributeBody.parameterAnnotations visible (← Reader.times (← Reader.u8).toNat
      (Reader.table (AnnotationData.read limit)))) (AttributeBody.Spelled .accepted) := by
  have table := Reader.Consumes.tableBytes (AnnotationData.consumes_read limit)
  refine .bind .u8 fun n xs first => .map ((Reader.Consumes.times table _).mono ?_)
  rintro parameters ys ⟨length, parts, each, rfl⟩
  show (if parameters.length < 256 then _ else _) = _
  rw [if_pos (length ▸ n.toNat_lt), first, length, UInt8.ofNat_toNat]
  exact except_map_eq_ok.2 ⟨parts, except_mapM_eq_ok.2 each, rfl⟩

/-- Under a known name a body takes bytes that are those of the body. -/
theorem consumes_readPlain {name : String} {r : Reader AttributeBody}
    (known : readPlain options name = some r) : r.Consumes (AttributeBody.Spelled .accepted) := by
  unfold readPlain at known
  dsimp only at known
  split at known
  all_goals cases known
  case h_2 | h_13 => exact .map (.tableBytes .u16)
  case h_5 => exact consumes_methodParameters
  case h_6 | h_7 => exact .map (.tableBytes (AnnotationData.consumes_read _))
  case h_8 | h_9 => exact consumes_parameterAnnotations
  case h_10 => exact .map (.tableBytes InnerClass.consumes)
  case h_11 =>
    exact .bind .u16 fun owner xs first => .map (Reader.Consumes.u16.mono fun method ys second => by
      rw [first, second]; rfl)
  case h_14 => exact .map (.tableBytes LineNumber.consumes)
  case h_15 => exact .map (.tableBytes LocalVariable.consumes)
  case h_16 =>
    exact .bind .u16 fun injector xs first => .map (Reader.Consumes.u8.mono fun b ys second =>
      ⟨b, rfl, by rw [first, second]⟩)
  all_goals exact .map (Reader.Consumes.u16.mono fun index bs same => same ▸ rfl)

theorem consumes_readCode {inner : Reader Attribute} (each : inner.Consumes (Spelled .accepted)) :
    (readCode inner).Consumes (CodeAttribute.Spelled .accepted) := by
  refine .bind .u16 fun maxStack xs first => .bind .u16 fun maxLocals ys second =>
    .bind (.blockBytes .codeSize) fun code sized coded => ?_
  dsimp only
  split
  · exact .throw
  · refine .bind (.tableBytes ExceptionEntry.consumes) fun exceptions handlers caught =>
      .map ((Reader.Consumes.table each).mono fun attributes table attached => ?_)
    rw [first, second]
    exact CodeAttribute.spelled_iff.2 ⟨sized, handlers, table, coded, caught, attached, rfl⟩

/-- A body that is decoded of a block has the bytes of that block. -/
theorem spelled_of_decodeBody {inner : Reader Attribute} {text : String} {block : Bytes}
    {body : AttributeBody} (each : inner.Consumes (Spelled .accepted))
    (h : decodeBody options inner text block = .ok body) : body.Spelled .accepted block := by
  have whole {α : Type} {r : Reader α} {W : α → Bytes → Prop} {a : α} {s : Input}
      (takes : r.Consumes W) (read : r (.ofBytes block) = .ok a s) (empty : s.rest = []) :
      W a block := by
    obtain ⟨bs, same, related⟩ := takes _ _ _ read
    rw [empty, List.append_nil] at same
    exact (show block = bs from same) ▸ related
  obtain ⟨-, c, s, read, empty, rfl⟩ | ⟨r, s, known, read, empty⟩ | ⟨-, -, rfl⟩ :=
    decodeBody_eq_ok h
  · show c.Spelled .accepted block
    exact whole (consumes_readCode each) read empty
  · exact whole (consumes_readPlain known) read empty
  · rfl

theorem consumes_read (p : Pool) (depth : Nat) :
    (read options p depth).Consumes (Spelled .accepted) := by
  induction depth with
  | zero => exact .throw
  | succ depth ih =>
    refine .bind .u16 fun name xs first => .bind (.blockBytes .attributeSize)
      fun block sized fits => ?_
    cases decoded : (do decodeBody options (read options p depth) (← p.utf8 name) block) with
    | error e => exact .throw
    | ok body =>
      obtain ⟨text, -, decoded⟩ := except_bind_eq_ok.1 decoded
      refine .pure ⟨block, sized, spelled_of_decodeBody ih decoded, fits, ?_⟩
      rw [first, List.append_nil]

end Attribute

/-! ## Members and class files -/

/-- The bytes are those of the member. -/
def Member.Spelled (σ : Spelling) (m : Member) (bs : Bytes) : Prop :=
  ∃ table, Tabled (Attribute.Spelled σ) m.attributes table ∧ bs = Bytes.ofU16 m.access.bits ++
    (Bytes.ofU16 m.name ++ (Bytes.ofU16 m.descriptor ++ table))

namespace Member

theorem consumes_read (p : Pool) (depth : Nat) :
    (read options p depth).Consumes (Spelled .accepted) := by
  refine .bind .u16 fun access ws first => .bind .u16 fun name xs second =>
    .bind .u16 fun descriptor ys third =>
      .bind (.table (Attribute.consumes_read p depth)) fun attributes table attached => ?_
  split
  · refine .pure ⟨table, attached, ?_⟩
    rw [first, second, third, List.append_nil]
  · exact .throw

theorem spelled_written {m : Member} {bs : Bytes} :
    m.Spelled .written bs ↔ m.write = .ok bs := by
  unfold write
  constructor
  · rintro ⟨table, attached, rfl⟩
    exact except_map_eq_ok.2 ⟨table, Attribute.tabled_spelled.1 attached, rfl⟩
  · intro h
    obtain ⟨table, attached, rfl⟩ := except_map_eq_ok.1 h
    exact ⟨table, Attribute.tabled_spelled.2 attached, rfl⟩

theorem tabled_spelled {members : List Member} {bs : Bytes} :
    Tabled (Spelled .written) members bs ↔ writeAll members = .ok bs := by
  rw [writeAll_eq_ok]
  exact ⟨fun h => h.imp fun _ _ _ _ => spelled_written.1,
    fun h => h.imp fun _ _ _ _ => spelled_written.2⟩

end Member

namespace ClassFile

/-- The image is that of the class file. -/
structure Spelled (σ : Spelling) (c : ClassFile) (image : Bytes) : Prop where
  parts : ∃ pool interfaces fields methods attributes, c.pool.Spelled σ pool ∧
    tableBytes Bytes.ofU16 c.interfaces = .ok interfaces ∧
    Tabled (Member.Spelled σ) c.fields fields ∧ Tabled (Member.Spelled σ) c.methods methods ∧
    Tabled (Attribute.Spelled σ) c.attributes attributes ∧
    image = Bytes.ofU32 magic ++ ([c.minorVersion, c.majorVersion].flatMap Bytes.ofU16 ++ (pool ++
      ([c.access.bits, c.thisClass, c.superClass].flatMap Bytes.ofU16 ++ (interfaces ++
        (fields ++ (methods ++ attributes))))))

/-- Written for a class file is the image that spells it as it is written. -/
theorem spelled_written {c : ClassFile} {image : Bytes} :
    c.Spelled .written image ↔ c.toBytes = .ok image := by
  unfold toBytes
  constructor
  · rintro ⟨pool, interfaces, fields, methods, attributes, pooled, listed, fielded, methodic,
      attached, rfl⟩
    exact except_bind_eq_ok.2 ⟨pool, Pool.spelled_written.1 pooled, except_bind_eq_ok.2
      ⟨interfaces, listed, except_bind_eq_ok.2 ⟨fields, Member.tabled_spelled.1 fielded,
        except_bind_eq_ok.2 ⟨methods, Member.tabled_spelled.1 methodic,
          except_map_eq_ok.2 ⟨attributes, Attribute.tabled_spelled.1 attached, rfl⟩⟩⟩⟩⟩
  · intro h
    obtain ⟨pool, pooled, h⟩ := except_bind_eq_ok.1 h
    obtain ⟨interfaces, listed, h⟩ := except_bind_eq_ok.1 h
    obtain ⟨fields, fielded, h⟩ := except_bind_eq_ok.1 h
    obtain ⟨methods, methodic, h⟩ := except_bind_eq_ok.1 h
    obtain ⟨attributes, attached, rfl⟩ := except_map_eq_ok.1 h
    exact ⟨pool, interfaces, fields, methods, attributes, Pool.spelled_written.2 pooled, listed,
      Member.tabled_spelled.2 fielded, Member.tabled_spelled.2 methodic,
      Attribute.tabled_spelled.2 attached, rfl⟩

/-- Whatever image is read, it is one of the class. -/
theorem spelled_of_read {length : Nat} {image : Bytes} {c : ClassFile}
    (h : (read options length).parse image = .ok c) : c.Spelled .accepted image := by
  obtain ⟨s, read⟩ := Reader.parse_eq_ok h
  obtain ⟨-, empty, s₁, s₂, s₃, s₄, s₅, s₆, s₇, s₈, s₉, s₁₀, first, minor, major, pooled, flags,
    this, above, listed, fielded, methodic, attached⟩ := read_eq_ok read
  obtain ⟨-, whole, rfl⟩ := Reader.Consumes.u32 _ _ _ first
  obtain ⟨-, rest₁, rfl⟩ := Reader.Consumes.u16 _ _ _ minor
  obtain ⟨-, rest₂, rfl⟩ := Reader.Consumes.u16 _ _ _ major
  obtain ⟨pool, rest₃, pooled⟩ := Pool.consumes_read _ _ _ pooled
  obtain ⟨-, rest₄, rfl⟩ := Reader.Consumes.u16 _ _ _ flags
  obtain ⟨-, rest₅, rfl⟩ := Reader.Consumes.u16 _ _ _ this
  obtain ⟨-, rest₆, rfl⟩ := Reader.Consumes.u16 _ _ _ above
  obtain ⟨interfaces, rest₇, listed⟩ := Reader.Consumes.tableBytes .u16 _ _ _ listed
  obtain ⟨fields, rest₈, fielded⟩ :=
    Reader.Consumes.table (Member.consumes_read c.pool length) _ _ _ fielded
  obtain ⟨methods, rest₉, methodic⟩ :=
    Reader.Consumes.table (Member.consumes_read c.pool length) _ _ _ methodic
  obtain ⟨attributes, rest₁₀, attached⟩ :=
    Reader.Consumes.table (Attribute.consumes_read c.pool length) _ _ _ attached
  refine ⟨pool, interfaces, fields, methods, attributes, pooled, listed, fielded, methodic,
    attached, ?_⟩
  rw [show image = _ from whole, rest₁, rest₂, rest₃, rest₄, rest₅, rest₆, rest₇, rest₈, rest₉,
    rest₁₀, empty]
  simp

/-- An image that is accepted is one of the class that is read, and the very one that is written of
the class if it spells texts and flags as they are written. -/
theorem reproduces_iff {image : Bytes} {c : ClassFile} (h : ofBytes options image = .ok c) :
    c.Spelled .accepted image ∧ (c.toBytes = .ok image ↔ c.Spelled .written image) := by
  obtain ⟨c, read, h⟩ := except_bind_eq_ok.1 (except_mapError_eq_ok h)
  obtain ⟨⟨⟩, -, h⟩ := except_bind_eq_ok.1 h
  cases h
  exact ⟨spelled_of_read read, spelled_written.symm⟩

/-- What is written of a class that was read is written again of what it is read as. -/
theorem toBytes_again {image image' : Bytes} {c : ClassFile} (h : ofBytes options image = .ok c)
    (written : c.toBytes = .ok image') :
    ∃ c', ofBytes options image' = .ok c' ∧ c'.toBytes = .ok image' := by
  obtain ⟨-, q, same, again⟩ := ofBytes_toBytes (decoded_of_ofBytes h).readable written
  exact ⟨_, again, (toBytes_congr same).trans written⟩

end ClassFile

end Weft
