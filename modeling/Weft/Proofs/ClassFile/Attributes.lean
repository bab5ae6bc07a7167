import Weft.Proofs.ClassFile.Pools

/-!
# Attributes written and read back

An attribute is readable with a pool if what is written for it is read back as it is, with every
pool that extends the first and is small enough to be written itself. Attributes that are read are
readable, and so are those that are made for names that are known.
-/

namespace Weft

theorem forall₂_eq_map {α : Type} {f : α → Bytes} {as : List α} {parts : List Bytes} :
    List.Forall₂ (fun a bs => bs = f a) as parts ↔ parts = as.map f := by
  induction as generalizing parts with
  | nil => simp
  | cons a as ih =>
    rw [List.forall₂_cons_left_iff, List.map_cons]
    constructor
    · rintro ⟨_, _, rfl, rest, rfl⟩
      rw [ih.1 rest]
    · rintro rfl
      exact ⟨_, _, rfl, ih.2 rfl, rfl⟩

theorem tableBytes_eq_ok {α : Type} {f : α → Bytes} {as : List α} {bs : Bytes} :
    tableBytes f as = .ok bs ↔ Tabled (fun a part => part = f a) as bs := by
  unfold tableBytes
  dsimp only
  constructor
  · intro h
    split at h
    · rename_i few
      cases h
      rw [List.flatMap_def]
      exact .of_map few fun _ _ => rfl
    · cases h
  · rintro ⟨few, parts, each, rfl⟩
    rw [forall₂_eq_map.1 each, ← List.flatMap_def]
    exact if_pos few

namespace Reader

variable {α : Type} {pos : Nat}

namespace Takes

theorem tableBytes {r : Reader α} {f : α → Bytes} {as : List α} {bs : Bytes}
    (each : ∀ a ∈ as, ∀ pos, r.Takes pos (f a) a) (h : tableBytes f as = .ok bs) :
    (Reader.table r).Takes pos bs as :=
  .table ((tableBytes_eq_ok.1 h).imp fun a mem _ _ same => same ▸ each a mem)

theorem blockBytes {cause : Unsupported} {block bs : Bytes}
    (h : blockBytes cause block = .ok bs) :
    Reader.block.Takes pos bs block ∧ block.length < bs.length := by
  simp only [Weft.blockBytes] at h
  split at h
  · rename_i small
    cases h
    exact ⟨(u32 _).bind (bytes (UInt32.toNat_ofNat_of_lt' small).symm), by simp⟩
  · cases h

end Takes

end Reader

/-! ## Annotations -/

namespace ElementValue

theorem writeNamed_eq (elements : List (UInt16 × ElementValue)) :
    writeNamed elements = (elements.map fun e => Bytes.ofU16 e.1 ++ e.2.write).flatten := by
  induction elements with
  | nil => rfl
  | cons e elements ih => simp [writeNamed, ih]

theorem writeList_eq (items : List ElementValue) :
    writeList items = (items.map write).flatten := by
  induction items with
  | nil => rfl
  | cons v items ih => simp [writeList, ih]

/-- A value that reading accepts with that many levels left: its constants have known tags, and the
lengths of its tables fit in sixteen bits. -/
inductive Within : Nat → ElementValue → Prop
  | const {levels tag index} : isConstTag tag = true → Within (levels + 1) (.const tag index)
  | enum {levels typeName constName} : Within (levels + 1) (.enum typeName constName)
  | classInfo {levels index} : Within (levels + 1) (.classInfo index)
  | nested {levels type elements} : elements.length < 65536 →
      (∀ e ∈ elements, Within levels e.2) → Within (levels + 1) (.nested type elements)
  | array {levels items} : items.length < 65536 → (∀ v ∈ items, Within levels v) →
      Within (levels + 1) (.array items)

theorem takes_named {limit levels : Nat} {elements : List (UInt16 × ElementValue)}
    (small : elements.length < 65536)
    (each : ∀ e ∈ elements, ∀ pos, (read limit levels).Takes pos e.2.write e.2) (pos : Nat) :
    (Reader.table (do return (← Reader.u16, ← read limit levels))).Takes pos
      (Bytes.ofCount elements.length ++ writeNamed elements) elements := by
  rw [writeNamed_eq]
  refine .table (.of_map small fun e mem pos => ?_)
  exact (Reader.Takes.u16 e.1).bind (each e mem _).map

/-- A value within some levels is read back from its bytes with those levels left. -/
theorem takes_write {limit levels : Nat} {v : ElementValue} (h : Within levels v) (pos : Nat) :
    (read limit levels).Takes pos v.write v := by
  induction h generalizing pos with
  | @const levels tag index known =>
    refine (Reader.Takes.u8 tag).bind ?_
    rw [if_pos known]
    exact (Reader.Takes.u16 index).map
  | @enum levels typeName constName =>
    exact (Reader.Takes.u8 _).bind
      ((Reader.Takes.u16 typeName).bind (Reader.Takes.u16 constName).map)
  | @classInfo levels index => exact (Reader.Takes.u8 _).bind (Reader.Takes.u16 index).map
  | @nested levels type elements small _ ih =>
    exact (Reader.Takes.u8 _).bind ((Reader.Takes.u16 type).bind (takes_named small ih _).map)
  | @array levels items small _ ih =>
    refine (Reader.Takes.u8 _).bind (Reader.Takes.map ?_)
    rw [writeList_eq]
    exact .table (.of_map small ih)

theorem within_of_named {limit levels : Nat} {elements : List (UInt16 × ElementValue)}
    {s s' : Input}
    (ih : ∀ {s s' : Input} {v : ElementValue}, read limit levels s = .ok v s' → Within levels v)
    (h : Reader.table (do return (← Reader.u16, ← read limit levels)) s = .ok elements s') :
    elements.length < 65536 ∧ ∀ e ∈ elements, Within levels e.2 := by
  obtain ⟨small, each⟩ := Reader.table_eq_ok h
  refine ⟨small, fun e mem => ?_⟩
  obtain ⟨t, t', found⟩ := each e mem
  obtain ⟨name, u, -, found⟩ := step_bind_eq_ok.1 found
  obtain ⟨v, u', value, found⟩ := step_bind_eq_ok.1 found
  obtain ⟨rfl, -⟩ := step_pure_eq_ok.1 found
  exact ih value

/-- A value that is read is within the levels that were left. -/
theorem within_of_read {limit levels : Nat} {s s' : Input} {v : ElementValue}
    (h : read limit levels s = .ok v s') : Within levels v := by
  induction levels generalizing v s s' with
  | zero => cases h
  | succ levels ih =>
    obtain ⟨tag, t, -, h⟩ := step_bind_eq_ok.1 h
    split at h
    · rename_i known
      obtain ⟨index, u, -, h⟩ := step_bind_eq_ok.1 h
      obtain ⟨rfl, -⟩ := step_pure_eq_ok.1 h
      exact .const known
    · generalize Char.ofNat tag.toNat = c at h
      split at h
      · obtain ⟨typeName, u, -, h⟩ := step_bind_eq_ok.1 h
        obtain ⟨constName, u', -, h⟩ := step_bind_eq_ok.1 h
        obtain ⟨rfl, -⟩ := step_pure_eq_ok.1 h
        exact .enum
      · obtain ⟨index, u, -, h⟩ := step_bind_eq_ok.1 h
        obtain ⟨rfl, -⟩ := step_pure_eq_ok.1 h
        exact .classInfo
      · obtain ⟨type, u, -, h⟩ := step_bind_eq_ok.1 h
        obtain ⟨elements, u', found, h⟩ := step_bind_eq_ok.1 h
        obtain ⟨rfl, -⟩ := step_pure_eq_ok.1 h
        obtain ⟨small, each⟩ := within_of_named (fun read => ih read) found
        exact .nested small each
      · obtain ⟨items, u, found, h⟩ := step_bind_eq_ok.1 h
        obtain ⟨rfl, -⟩ := step_pure_eq_ok.1 h
        obtain ⟨small, each⟩ := Reader.table_eq_ok found
        refine .array small fun v mem => ?_
        obtain ⟨t, t', value⟩ := each v mem
        exact ih value
      · cases h

end ElementValue

namespace AnnotationData

/-- An annotation whose values may nest that deep. -/
structure Within (limit : Nat) (a : AnnotationData) : Prop where
  few : a.elements.length < 65536
  values : ∀ e ∈ a.elements, e.2.Within limit

theorem takes_write {limit : Nat} {a : AnnotationData} (h : a.Within limit) (pos : Nat) :
    (read limit).Takes pos a.write a :=
  (Reader.Takes.u16 a.type).bind
    (ElementValue.takes_named h.few (fun e mem => ElementValue.takes_write (h.values e mem)) _).map

theorem within_of_read {limit : Nat} {s s' : Input} {a : AnnotationData}
    (h : read limit s = .ok a s') : a.Within limit := by
  obtain ⟨type, t, -, h⟩ := step_bind_eq_ok.1 h
  obtain ⟨elements, u, found, h⟩ := step_bind_eq_ok.1 h
  obtain ⟨rfl, -⟩ := step_pure_eq_ok.1 h
  obtain ⟨small, each⟩ := ElementValue.within_of_named ElementValue.within_of_read found
  exact ⟨small, each⟩

end AnnotationData

/-! ## Bodies under known names -/

/-- The name under which a body stands, unless it is kept as bytes. -/
def AttributeBody.name? : AttributeBody → Option String
  | .code _ => some "Code"
  | .constantValue _ => some "ConstantValue"
  | .exceptions _ => some "Exceptions"
  | .signature _ => some "Signature"
  | .sourceFile _ => some "SourceFile"
  | .methodParameters _ => some "MethodParameters"
  | .annotations visible _ =>
    some (if visible then "RuntimeVisibleAnnotations" else "RuntimeInvisibleAnnotations")
  | .parameterAnnotations visible _ =>
    some (if visible then "RuntimeVisibleParameterAnnotations"
      else "RuntimeInvisibleParameterAnnotations")
  | .innerClasses _ => some "InnerClasses"
  | .enclosingMethod .. => some "EnclosingMethod"
  | .nestHost _ => some "NestHost"
  | .nestMembers _ => some "NestMembers"
  | .lineNumberTable _ => some "LineNumberTable"
  | .localVariableTable _ => some "LocalVariableTable"
  | .woven _ => some "classweave.Woven"
  | .raw _ => none

/-- The annotations of the body nest at most that deep. -/
def AttributeBody.Within (limit : Nat) : AttributeBody → Prop
  | .annotations _ items => ∀ a ∈ items, a.Within limit
  | .parameterAnnotations _ parameters => ∀ items ∈ parameters, ∀ a ∈ items, a.Within limit
  | _ => True

theorem ExceptionEntry.takes (e : ExceptionEntry) (pos : Nat) :
    Reader.Takes (do
      return ExceptionEntry.mk (← Reader.u16) (← Reader.u16) (← Reader.u16) (← Reader.u16))
      pos e.write e := by
  simp only [ExceptionEntry.write, List.flatMap_cons, List.flatMap_nil, List.append_nil]
  exact (Reader.Takes.u16 _).bind ((Reader.Takes.u16 _).bind ((Reader.Takes.u16 _).bind
    (Reader.Takes.u16 _).map))

theorem MethodParameter.takes (p : MethodParameter) (pos : Nat) :
    Reader.Takes (do return MethodParameter.mk (← Reader.u16) (← Reader.u16)) pos p.write p := by
  simp only [MethodParameter.write, List.flatMap_cons, List.flatMap_nil, List.append_nil]
  exact (Reader.Takes.u16 _).bind (Reader.Takes.u16 _).map

theorem InnerClass.takes (c : InnerClass) (pos : Nat) :
    Reader.Takes (do
      return InnerClass.mk (← Reader.u16) (← Reader.u16) (← Reader.u16) ⟨← Reader.u16⟩)
      pos c.write c := by
  simp only [InnerClass.write, List.flatMap_cons, List.flatMap_nil, List.append_nil]
  exact (Reader.Takes.u16 _).bind ((Reader.Takes.u16 _).bind ((Reader.Takes.u16 _).bind
    (Reader.Takes.u16 _).map))

theorem LineNumber.takes (l : LineNumber) (pos : Nat) :
    Reader.Takes (do return LineNumber.mk (← Reader.u16) (← Reader.u16)) pos l.write l := by
  simp only [LineNumber.write, List.flatMap_cons, List.flatMap_nil, List.append_nil]
  exact (Reader.Takes.u16 _).bind (Reader.Takes.u16 _).map

theorem LocalVariable.takes (v : LocalVariable) (pos : Nat) :
    Reader.Takes (do
      return LocalVariable.mk (← Reader.u16) (← Reader.u16) (← Reader.u16) (← Reader.u16)
        (← Reader.u16))
      pos v.write v := by
  simp only [LocalVariable.write, List.flatMap_cons, List.flatMap_nil, List.append_nil]
  exact (Reader.Takes.u16 _).bind ((Reader.Takes.u16 _).bind ((Reader.Takes.u16 _).bind
    ((Reader.Takes.u16 _).bind (Reader.Takes.u16 _).map)))

theorem WovenStamp.takes (stamp : WovenStamp) (pos : Nat) :
    Reader.Takes (do return AttributeBody.woven ⟨← Reader.u16, (← Reader.u8) != 0⟩) pos
      (Bytes.ofU16 stamp.injector ++ [if stamp.modified then 1 else 0]) (.woven stamp) := by
  obtain ⟨injector, modified⟩ := stamp
  refine (Reader.Takes.u16 injector).bind ?_
  have flag : Reader.u8.Takes (pos + (Bytes.ofU16 injector).length)
      [if modified then 1 else 0] (if modified then 1 else 0) := .u8 _
  have last := flag.map (f := fun b => AttributeBody.woven ⟨injector, b != 0⟩)
  cases modified <;> exact last

namespace Attribute

theorem takes_parameterAnnotations {limit : Nat} {visible : Bool}
    {parameters : List (List AnnotationData)}
    (within : ∀ items ∈ parameters, ∀ a ∈ items, a.Within limit)
    {bs : Bytes} (written : parameterAnnotationBytes parameters = .ok bs) (pos : Nat) :
    Reader.Takes (do
      return AttributeBody.parameterAnnotations visible (← Reader.times (← Reader.u8).toNat
        (Reader.table (AnnotationData.read limit)))) pos bs
      (.parameterAnnotations visible parameters) := by
  simp only [parameterAnnotationBytes] at written
  split at written
  · rename_i small
    obtain ⟨tables, made, rfl⟩ := except_map_eq_ok.1 written
    refine (Reader.Takes.u8 _).bind (Reader.Takes.map (Reader.Takes.times ?_
      (UInt8.toNat_ofNat_of_lt' small).symm))
    have pairs := (List.forall₂_and_left _ _).2 ⟨within, except_mapM_eq_ok.1 made⟩
    refine pairs.flip.imp fun bs items ⟨each, written⟩ pos => ?_
    exact .tableBytes (fun a mem => AnnotationData.takes_write (each a mem)) written
  · cases written

theorem takes_methodParameters {parameters : List MethodParameter} {bs : Bytes}
    (written : (AttributeBody.methodParameters parameters).write = .ok bs) (pos : Nat) :
    Reader.Takes (do
      return AttributeBody.methodParameters (← Reader.times (← Reader.u8).toNat do
        return ⟨← Reader.u16, ← Reader.u16⟩)) pos bs (.methodParameters parameters) := by
  simp only [AttributeBody.write] at written
  split at written
  · rename_i small
    cases written
    rw [List.flatMap_def]
    exact (Reader.Takes.u8 _).bind (Reader.Takes.map (Reader.Takes.times
      (Reader.forall₂_map fun p _ => p.takes) (UInt8.toNat_ofNat_of_lt' small).symm))
  · cases written

/-- A body other than code is read back from its bytes under its name. -/
theorem exists_readPlain {options : DecodeOptions} {name : String} {body : AttributeBody}
    (standard : body.name? = some name) (plain : body.code? = none)
    (within : body.Within options.annotationDepth) :
    ∃ r, readPlain options name = some r ∧
      ∀ bs, body.write = .ok bs → ∀ pos, r.Takes pos bs body := by
  cases body with
  | code c => cases plain
  | raw bytes => cases standard
  | constantValue index | signature index | sourceFile index | nestHost index =>
    cases standard
    refine ⟨_, rfl, fun bs written pos => ?_⟩
    cases written
    exact (Reader.Takes.u16 index).map
  | exceptions indices | nestMembers indices =>
    cases standard
    exact ⟨_, rfl, fun bs written pos => (Reader.Takes.tableBytes (fun _ _ _ => .u16 _) written).map⟩
  | methodParameters parameters =>
    cases standard
    exact ⟨_, rfl, fun bs written pos => takes_methodParameters written pos⟩
  | annotations visible items =>
    have table : ∀ bs, (AttributeBody.annotations visible items).write = .ok bs → ∀ pos,
        (Reader.table (AnnotationData.read options.annotationDepth)).Takes pos bs items :=
      fun bs written pos =>
        .tableBytes (fun a mem => AnnotationData.takes_write (within a mem)) written
    cases visible <;> cases standard <;>
      exact ⟨_, rfl, fun bs written pos => (table bs written pos).map⟩
  | parameterAnnotations visible parameters =>
    cases visible <;> cases standard <;>
      exact ⟨_, rfl, fun bs written pos => takes_parameterAnnotations within written pos⟩
  | innerClasses entries =>
    cases standard
    exact ⟨_, rfl, fun bs written pos => (Reader.Takes.tableBytes (fun c _ => c.takes) written).map⟩
  | enclosingMethod owner method =>
    cases standard
    refine ⟨_, rfl, fun bs written pos => ?_⟩
    cases written
    exact (Reader.Takes.u16 owner).bind (Reader.Takes.u16 method).map
  | lineNumberTable entries =>
    cases standard
    exact ⟨_, rfl, fun bs written pos => (Reader.Takes.tableBytes (fun l _ => l.takes) written).map⟩
  | localVariableTable entries =>
    cases standard
    exact ⟨_, rfl, fun bs written pos => (Reader.Takes.tableBytes (fun v _ => v.takes) written).map⟩
  | woven stamp =>
    cases standard
    refine ⟨_, rfl, fun bs written pos => ?_⟩
    cases written
    exact WovenStamp.takes _ pos

/-- A body that is read under a known name has that name, and its annotations nest as deep as they
may. -/
theorem name_of_readPlain {options : DecodeOptions} {name : String} {r : Reader AttributeBody}
    (known : readPlain options name = some r) {s s' : Input} {body : AttributeBody}
    (h : r s = .ok body s') :
    body.name? = some name ∧ body.code? = none ∧ body.Within options.annotationDepth := by
  unfold readPlain at known
  dsimp only at known
  split at known
  all_goals cases known
  case h_6 | h_7 =>
    obtain ⟨items, t, read, h⟩ := step_bind_eq_ok.1 h
    obtain ⟨rfl, -⟩ := step_pure_eq_ok.1 h
    refine ⟨rfl, rfl, fun a mem => ?_⟩
    obtain ⟨t, t', read⟩ := (Reader.table_eq_ok read).2 a mem
    exact AnnotationData.within_of_read read
  case h_8 | h_9 =>
    obtain ⟨n, t, -, h⟩ := step_bind_eq_ok.1 h
    obtain ⟨parameters, u, read, h⟩ := step_bind_eq_ok.1 h
    obtain ⟨rfl, -⟩ := step_pure_eq_ok.1 h
    refine ⟨rfl, rfl, fun items mem a mem' => ?_⟩
    obtain ⟨t, t', read⟩ := (Reader.times_eq_ok read).2 items mem
    obtain ⟨t, t', read⟩ := (Reader.table_eq_ok read).2 a mem'
    exact AnnotationData.within_of_read read
  -- two items before the body
  case h_5 | h_11 | h_16 =>
    obtain ⟨first, t, -, h⟩ := step_bind_eq_ok.1 h
    obtain ⟨second, u, -, h⟩ := step_bind_eq_ok.1 h
    obtain ⟨rfl, -⟩ := step_pure_eq_ok.1 h
    exact ⟨rfl, rfl, trivial⟩
  all_goals
    obtain ⟨item, t, -, h⟩ := step_bind_eq_ok.1 h
    obtain ⟨rfl, -⟩ := step_pure_eq_ok.1 h
    exact ⟨rfl, rfl, trivial⟩

/-! ## Readable attributes -/

/-- An attribute under the name of its body that is read back from what is written for it, with
pools that extend the one given. -/
structure Readable (options : DecodeOptions) (p : Pool) (a : Attribute) : Prop where
  named : ∀ text, a.body.name? = some text → p.Holds a.name (.utf8 text)
  takes : ∀ q : Pool, p.Extends q → q.size < 65536 → ∀ bs, a.write = .ok bs →
    ∀ depth, bs.length < depth → ∀ pos, (read options q depth).Takes pos bs a
  short : ∀ c, a.body.code? = some c → c.code.length ≤ 65535

variable {options : DecodeOptions} {p q : Pool}

theorem Readable.mono {a : Attribute} (h : a.Readable options p) (grown : p.Extends q) :
    a.Readable options q where
  named text standard := (h.named text standard).mono grown
  takes r further := h.takes r (grown.trans further)
  short := h.short

theorem write_eq_ok {name : UInt16} {body : AttributeBody} {bs : Bytes}
    (h : Attribute.write ⟨name, body⟩ = .ok bs) :
    ∃ block, body.write = .ok block ∧ block.length < bs.length ∧
      ∀ {β : Type} {f : UInt16 → Bytes → Reader β} {b : β},
        (∀ pos, (f name block).Takes pos [] b) →
        ∀ pos, Reader.Takes (do f (← Reader.u16) (← Reader.block)) pos bs b := by
  simp only [Attribute.write] at h
  obtain ⟨block, written, h⟩ := except_bind_eq_ok.1 h
  obtain ⟨tail, sized, rfl⟩ := except_map_eq_ok.1 h
  have taken (pos : Nat) := @Reader.Takes.blockBytes pos _ _ _ sized
  refine ⟨block, written, ?_, fun last pos => ?_⟩
  · have := (taken 0).2
    simp
    omega
  · refine (Reader.Takes.u16 name).bind ?_
    have joined := (taken _).1.bind (last (pos + (Bytes.ofU16 name).length + tail.length))
    rwa [List.append_nil] at joined

/-- An attribute is readable if its body is decoded from what is written for it. -/
theorem readable_of_decodes {name : UInt16} {text : String} {body : AttributeBody}
    (named : p.Holds name (.utf8 text)) (standard : ∀ other, body.name? = some other → other = text)
    (short : ∀ c, body.code? = some c → c.code.length ≤ 65535)
    (decodes : ∀ q, p.Extends q → q.size < 65536 → ∀ block, body.write = .ok block →
      ∀ depth, block.length < depth →
        decodeBody options (read options q depth) text block = .ok body) :
    Readable options p ⟨name, body⟩ := by
  refine ⟨fun other found => standard other found ▸ named,
    fun q grown small bs h depth deep pos => ?_, short⟩
  obtain ⟨block, written, shorter, takes⟩ := write_eq_ok h
  obtain ⟨depth, rfl⟩ : ∃ d, depth = d + 1 := ⟨depth - 1, by omega⟩
  refine takes (fun pos => ?_) pos
  have found := decodes q grown small block written depth (by omega)
  have decoded : (do decodeBody options (read options q depth) (← q.utf8 name) block :
      Except Error AttributeBody) = .ok body := by
    rw [(named.mono grown).utf8 (by omega)]
    exact found
  rw [decoded]
  exact .pure _

theorem parse_whole {r : Reader AttributeBody} {block : Bytes} {body : AttributeBody}
    (takes : r.Takes 0 block body) :
    (do return (← r, (← get).rest) : Reader (AttributeBody × Bytes)).parse block =
      .ok (body, []) := by
  have found := takes []
  rw [List.append_nil] at found
  simp only [Reader.parse, Input.ofBytes, step_bind_ok found]
  rfl

theorem decodeBody_plain {inner : Reader Attribute} {text : String} {r : Reader AttributeBody}
    (known : readPlain options text = some r) {block : Bytes} {body : AttributeBody}
    (takes : r.Takes 0 block body) : decodeBody options inner text block = .ok body := by
  have other : text ≠ "Code" := by
    rintro rfl
    cases known
  simp only [decodeBody, if_neg other, known, parse_whole takes]
  rfl

theorem decodeBody_raw {inner : Reader Attribute} {text : String} (other : text ≠ "Code")
    (unknown : readPlain options text = none) (block : Bytes) :
    decodeBody options inner text block = .ok (.raw block) := by
  simp only [decodeBody, if_neg other, unknown]
  rfl

theorem readable_plain {name : UInt16} {text : String} {body : AttributeBody}
    (named : p.Holds name (.utf8 text)) (standard : body.name? = some text)
    (plain : body.code? = none) (within : body.Within options.annotationDepth) :
    Readable options p ⟨name, body⟩ := by
  obtain ⟨r, known, takes⟩ := exists_readPlain standard plain within
  refine readable_of_decodes named (fun _ found => ?_) (fun c coded => ?_) fun _ _ _ block h _ _ => ?_
  · exact (Option.some.inj (standard.symm.trans found)).symm
  · cases plain.symm.trans coded
  · exact decodeBody_plain known (takes block h 0)

theorem readable_raw {name : UInt16} {text : String} (named : p.Holds name (.utf8 text))
    (other : text ≠ "Code") (unknown : readPlain options text = none) (block : Bytes) :
    Readable options p ⟨name, .raw block⟩ := by
  refine readable_of_decodes named (fun _ found => nomatch found) (fun _ coded => nomatch coded)
    fun _ _ _ bs h _ _ => ?_
  cases h
  exact decodeBody_raw other unknown block

theorem decodeBody_code {inner : Reader Attribute} {block : Bytes} {c : CodeAttribute}
    (takes : (readCode inner).Takes 0 block c) :
    decodeBody options inner "Code" block = .ok (.code c) := by
  simp only [decodeBody, if_true, parse_whole takes.map]
  rfl

/-- What a body was decoded by, from the start of its block to the end. -/
theorem decodeBody_eq_ok {inner : Reader Attribute} {text : String} {block : Bytes}
    {body : AttributeBody} (h : decodeBody options inner text block = .ok body) :
    (text = "Code" ∧ ∃ c s, readCode inner (.ofBytes block) = .ok c s ∧ s.rest = [] ∧
        body = .code c) ∨
      (∃ r s, readPlain options text = some r ∧ r (.ofBytes block) = .ok body s ∧ s.rest = []) ∨
        (text ≠ "Code" ∧ readPlain options text = none ∧ body = .raw block) := by
  have parsed {r : Reader AttributeBody}
      (h : (do
        let whole ← (do return (← r, (← get).rest) :
          Reader (AttributeBody × Bytes)).parse block
        if whole.2.isEmpty then return whole.1
        else throw (.malformed (.attributeTail text whole.2.length)) :
          Except Error AttributeBody) = .ok body) :
      ∃ s, r (.ofBytes block) = .ok body s ∧ s.rest = [] := by
    obtain ⟨⟨found, rest⟩, whole, h⟩ := except_bind_eq_ok.1 h
    obtain ⟨s, read⟩ := Reader.parse_eq_ok whole
    obtain ⟨a, t, first, read⟩ := step_bind_eq_ok.1 read
    rw [step_get_bind] at read
    obtain ⟨pair, -⟩ := step_pure_eq_ok.1 read
    cases pair
    dsimp only at h
    split at h
    · rename_i empty
      cases h
      exact ⟨t, first, List.isEmpty_iff.1 empty⟩
    · cases h
  unfold decodeBody at h
  by_cases code : text = "Code"
  · rw [if_pos code] at h
    obtain ⟨s, read, empty⟩ := parsed h
    obtain ⟨c, t, first, last⟩ := step_bind_eq_ok.1 read
    obtain ⟨same, rfl⟩ := step_pure_eq_ok.1 last
    exact .inl ⟨code, c, t, first, empty, same.symm⟩
  · rw [if_neg code] at h
    cases known : readPlain options text with
    | none =>
      rw [known] at h
      cases h
      exact .inr (.inr ⟨code, rfl, rfl⟩)
    | some r =>
      rw [known] at h
      obtain ⟨s, read, empty⟩ := parsed h
      exact .inr (.inl ⟨r, s, rfl, read, empty⟩)

/-! ## Attributes of members -/

theorem writeAttributes_eq_ok {attributes : List Attribute} {bs : Bytes} :
    writeAttributes attributes = .ok bs ↔
      ∃ parts, List.Forall₂ (fun a part => a.write = .ok part) attributes parts ∧
        bs = parts.flatten := by
  induction attributes generalizing bs with
  | nil =>
    constructor
    · intro h
      cases h
      exact ⟨[], .nil, rfl⟩
    · rintro ⟨parts, each, rfl⟩
      cases each
      rfl
  | cons a attributes ih =>
    constructor
    · intro h
      obtain ⟨part, written, h⟩ := except_bind_eq_ok.1 h
      obtain ⟨tail, rest, rfl⟩ := except_map_eq_ok.1 h
      obtain ⟨parts, each, rfl⟩ := ih.1 rest
      exact ⟨part :: parts, .cons written each, rfl⟩
    · rintro ⟨parts, _ | ⟨written, each⟩, rfl⟩
      exact except_bind_eq_ok.2 ⟨_, written, except_map_eq_ok.2 ⟨_, ih.2 ⟨_, each, rfl⟩, rfl⟩⟩

theorem tableBytes_eq_ok {attributes : List Attribute} {bs : Bytes} :
    attributeTableBytes attributes = .ok bs ↔
      Tabled (fun a part => a.write = .ok part) attributes bs := by
  unfold attributeTableBytes
  dsimp only
  constructor
  · intro h
    split at h
    · rename_i few
      obtain ⟨tail, written, rfl⟩ := except_map_eq_ok.1 h
      obtain ⟨parts, each, rfl⟩ := writeAttributes_eq_ok.1 written
      exact ⟨few, parts, each, rfl⟩
    · cases h
  · rintro ⟨few, parts, each, rfl⟩
    rw [if_pos few]
    exact except_map_eq_ok.2 ⟨_, writeAttributes_eq_ok.2 ⟨parts, each, rfl⟩, rfl⟩

/-- Readable attributes are read back from their table. -/
theorem takes_table {attributes : List Attribute} {bs : Bytes}
    (readable : ∀ a ∈ attributes, a.Readable options p) (grown : p.Extends q)
    (small : q.size < 65536) (h : attributeTableBytes attributes = .ok bs) {depth : Nat}
    (deep : bs.length < depth) (pos : Nat) :
    (readTable options q depth).Takes pos bs attributes := by
  refine .table ((tableBytes_eq_ok.1 h).imp fun a mem part shorter written pos => ?_)
  exact (readable a mem).takes q grown small part written depth (Nat.lt_trans shorter deep) pos

theorem codeBytes_eq_ok {c : CodeAttribute} {bs : Bytes} : c.write = .ok bs ↔
    ∃ code exceptions table, blockBytes .codeSize c.code = .ok code ∧
      tableBytes ExceptionEntry.write c.exceptions = .ok exceptions ∧
        attributeTableBytes c.attributes = .ok table ∧
          bs = Bytes.ofU16 c.maxStack ++ (Bytes.ofU16 c.maxLocals ++ (code ++
            (exceptions ++ table))) := by
  obtain ⟨maxStack, maxLocals, code, exceptions, attributes⟩ := c
  simp only [CodeAttribute.write, attributeTableBytes]
  constructor
  · intro h
    obtain ⟨code, coded, h⟩ := except_bind_eq_ok.1 h
    obtain ⟨exceptions, caught, h⟩ := except_bind_eq_ok.1 h
    split at h
    · rename_i few
      obtain ⟨tail, written, rfl⟩ := except_map_eq_ok.1 h
      refine ⟨code, exceptions, _, coded, caught, ?_, rfl⟩
      rw [if_pos few]
      exact except_map_eq_ok.2 ⟨tail, written, rfl⟩
    · cases h
  · rintro ⟨code, exceptions, table, coded, caught, attached, rfl⟩
    split at attached
    · rename_i few
      obtain ⟨tail, written, rfl⟩ := except_map_eq_ok.1 attached
      refine except_bind_eq_ok.2 ⟨code, coded, except_bind_eq_ok.2 ⟨exceptions, caught, ?_⟩⟩
      rw [if_pos few]
      exact except_map_eq_ok.2 ⟨tail, written, rfl⟩
    · cases attached

/-- Code with readable attributes is readable. -/
theorem readable_code {name : UInt16} {c : CodeAttribute} (named : p.Holds name (.utf8 "Code"))
    (some_code : c.code.length ≠ 0) (short : c.code.length ≤ 65535)
    (readable : ∀ a ∈ c.attributes, a.Readable options p) : Readable options p ⟨name, .code c⟩ := by
  refine readable_of_decodes named (fun _ found => (Option.some.inj found).symm)
    (fun _ coded => Option.some.inj coded ▸ short) fun q grown small block h depth deep => ?_
  simp only [AttributeBody.write] at h
  obtain ⟨code, exceptions, table, coded, caught, attached, rfl⟩ := codeBytes_eq_ok.1 h
  obtain ⟨maxStack, maxLocals, bytes, handlers, attributes⟩ := c
  refine decodeBody_code ((Reader.Takes.u16 _).bind ((Reader.Takes.u16 _).bind
    ((Reader.Takes.blockBytes coded).1.bind ?_)))
  simp only [some_code, Nat.not_lt.2 short, decide_false, Bool.or_self, Bool.false_eq_true,
    if_false]
  refine (Reader.Takes.tableBytes (fun e _ => e.takes) caught).bind ?_
  have tail : ∀ pos, (Reader.table (read options q depth)).Takes pos table attributes :=
    takes_table readable grown small attached (by simp only [List.length_append] at deep; omega)
  exact (tail _).map

theorem readCode_eq_ok {inner : Reader Attribute} {c : CodeAttribute} {s s' : Input}
    (h : readCode inner s = .ok c s') : c.code.length ≠ 0 ∧ c.code.length ≤ 65535 ∧
      ∀ a ∈ c.attributes, ∃ t t', inner t = .ok a t' := by
  obtain ⟨maxStack, t, -, h⟩ := step_bind_eq_ok.1 h
  obtain ⟨maxLocals, t, -, h⟩ := step_bind_eq_ok.1 h
  obtain ⟨code, t, -, h⟩ := step_bind_eq_ok.1 h
  split at h
  · cases h
  · rename_i bounds
    obtain ⟨exceptions, t, -, h⟩ := step_bind_eq_ok.1 h
    obtain ⟨attributes, t, read, h⟩ := step_bind_eq_ok.1 h
    obtain ⟨rfl, -⟩ := step_pure_eq_ok.1 h
    simp only [Bool.or_eq_true, decide_eq_true_eq, not_or, Nat.not_lt] at bounds
    exact ⟨bounds.1, bounds.2, (Reader.table_eq_ok read).2⟩

/-- Under its name an attribute is read as code, as another body of that name or as bytes. -/
theorem read_eq_ok {depth : Nat} {a : Attribute} {s s' : Input}
    (h : read options p (depth + 1) s = .ok a s') : ∃ text, p.utf8 a.name = .ok text ∧
      ((text = "Code" ∧ ∃ c t t', a.body = .code c ∧
          readCode (read options p depth) t = .ok c t') ∨
        (a.body.name? = some text ∧ a.body.code? = none ∧
          a.body.Within options.annotationDepth) ∨
        (text ≠ "Code" ∧ readPlain options text = none ∧ ∃ block, a.body = .raw block)) := by
  obtain ⟨name, t, -, h⟩ := step_bind_eq_ok.1 h
  obtain ⟨block, u, -, h⟩ := step_bind_eq_ok.1 h
  cases decoded : (do decodeBody options (read options p depth) (← p.utf8 name) block) with
  | error e =>
    rw [decoded] at h
    cases h
  | ok body =>
    rw [decoded] at h
    obtain ⟨rfl, -⟩ := step_pure_eq_ok.1 h
    obtain ⟨text, named, decoded⟩ := except_bind_eq_ok.1 decoded
    refine ⟨text, named, ?_⟩
    obtain ⟨code, c, v, read, -, rfl⟩ | ⟨r, v, known, read, -⟩ | ⟨other, unknown, rfl⟩ :=
      decodeBody_eq_ok decoded
    · exact .inl ⟨code, c, _, v, rfl, read⟩
    · exact .inr (.inl (name_of_readPlain known read))
    · exact .inr (.inr ⟨other, unknown, block, rfl⟩)

/-- What holds of code if it holds of its attributes, and of all other bodies and bytes under a name,
holds of what is read. -/
theorem read_rule {P : Attribute → Prop}
    (code : ∀ {name c}, p.utf8 name = .ok "Code" → c.code.length ≠ 0 → c.code.length ≤ 65535 →
      (∀ a ∈ c.attributes, P a) → P ⟨name, .code c⟩)
    (plain : ∀ {name body text}, p.utf8 name = .ok text → body.name? = some text →
      body.code? = none → body.Within options.annotationDepth → P ⟨name, body⟩)
    (raw : ∀ {name text} block, p.utf8 name = .ok text → text ≠ "Code" →
      readPlain options text = none → P ⟨name, .raw block⟩)
    {depth : Nat} {a : Attribute} {s s' : Input} (h : read options p depth s = .ok a s') : P a := by
  induction depth generalizing a s s' with
  | zero => cases h
  | succ depth ih =>
    obtain ⟨name, body⟩ := a
    obtain ⟨text, named, read⟩ := read_eq_ok h
    obtain ⟨rfl, c, t, t', rfl, read⟩ | ⟨standard, other, within⟩ | ⟨other, unknown, block, rfl⟩ :=
      read
    · obtain ⟨some_code, short, each⟩ := readCode_eq_ok read
      refine code named some_code short fun a mem => ?_
      obtain ⟨w, w', read⟩ := each a mem
      exact ih read
    · exact plain named standard other within
    · exact raw block named other unknown

/-- Attributes that are read are readable. -/
theorem readable_of_read {depth : Nat} {a : Attribute} {s s' : Input}
    (h : read options p depth s = .ok a s') : a.Readable options p :=
  read_rule (fun named => readable_code (Pool.holds_of_utf8 named))
    (fun named => readable_plain (Pool.holds_of_utf8 named))
    (fun block named other unknown => readable_raw (Pool.holds_of_utf8 named) other unknown block) h

/-- The attribute stands under the name of its body, or its bytes stand under a name that no other
body has. -/
def Labelled (p : Pool) (a : Attribute) : Prop :=
  ∃ text, p.utf8 a.name = .ok text ∧
    (a.body.name? = some text ∨
      a.body.name? = none ∧ ∀ body : AttributeBody, body.name? ≠ some text)

theorem Labelled.mono {a : Attribute} (h : a.Labelled p) (grown : p.Extends q) : a.Labelled q := by
  obtain ⟨text, named, labelled⟩ := h
  exact ⟨text, Pool.utf8_mono grown named, labelled⟩

/-- A name under which nothing but bytes are read is that of no other body. -/
theorem name_ne_of_unknown {text : String} (other : text ≠ "Code")
    (unknown : readPlain options text = none) (body : AttributeBody) : body.name? ≠ some text := by
  intro named
  cases body with
  | code c => exact other (Option.some.inj named).symm
  | raw bytes => cases named
  | annotations visible items | parameterAnnotations visible items =>
    cases visible <;> cases named <;> cases unknown
  | _ =>
    cases named
    cases unknown

theorem labelled_of_read {depth : Nat} {a : Attribute} {s s' : Input}
    (h : read options p depth s = .ok a s') : a.Labelled p :=
  read_rule (fun named _ _ _ => ⟨_, named, .inl rfl⟩)
    (fun named standard _ _ => ⟨_, named, .inl standard⟩)
    (fun _ named other unknown => ⟨_, named, .inr ⟨rfl, name_ne_of_unknown other unknown⟩⟩) h

end Attribute

end Weft
