import Weft.Proofs.ClassFile.Images

/-!
# Well-formed class files

Well-formedness is said of a class file by itself, apart from reading and writing: which slots of
its pool are unusable, what its indices refer to, under which names its attributes stand and how
deep its annotations nest. A well-formed class file that can be written is what its image is read
as.
-/

namespace Weft

variable {options : DecodeOptions} {limit : Nat}

/-! ## Pools -/

namespace Pool

variable {p q : Pool}

/-- Only slot zero and the slots behind wide constants are unusable. -/
def Laid (p : Pool) : Prop :=
  ∃ cs, p.entries.toList = .unusable :: slots cs ∧ ∀ c ∈ cs, c ≠ .unusable

/-- There is a sound pool with the same constants, whatever the pool remembers. -/
theorem Laid.exists_sound (laid : p.Laid) : ∃ q : Pool, q.Sound ∧ q.entries = p.entries := by
  obtain ⟨cs, slots, usable⟩ := laid
  have same : (pushAll cs empty).entries.toList = p.entries.toList := by
    rw [entries_pushAll, slots]
    rfl
  exact ⟨pushAll cs empty, sound_pushAll usable sound_empty, Array.toList_inj.1 same⟩

theorem write_congr (same : q.entries = p.entries) : q.write = p.write := by
  unfold write size
  rw [same]

end Pool

/-! ## Attributes and members -/

/-- An attribute under the name of its body, or of bytes under a name that no other body has. Code
is neither empty nor too long, and annotations nest at most `limit` deep. -/
inductive Attribute.WellFormed (limit : Nat) (p : Pool) : Attribute → Prop
  | code {name c} : p.utf8 name = .ok "Code" → 0 < c.code.length → c.code.length ≤ 65535 →
      (∀ a ∈ c.attributes, WellFormed limit p a) → WellFormed limit p ⟨name, .code c⟩
  | plain {name text body} : p.utf8 name = .ok text → body.name? = some text → body.code? = none →
      body.Within limit → WellFormed limit p ⟨name, body⟩
  | raw {name text bytes} : p.utf8 name = .ok text → (∀ body : AttributeBody, body.name? ≠ some text) →
      WellFormed limit p ⟨name, .raw bytes⟩

namespace Attribute

variable {p q : Pool}

theorem readPlain_eq_none {text : String} (unknown : ∀ body : AttributeBody, body.name? ≠ some text) :
    readPlain options text = none := by
  cases known : readPlain options text with
  | none => rfl
  | some r =>
    unfold readPlain at known
    dsimp only at known
    split at known
    case h_1 => exact absurd rfl (unknown (.constantValue 0))
    case h_2 => exact absurd rfl (unknown (.exceptions []))
    case h_3 => exact absurd rfl (unknown (.signature 0))
    case h_4 => exact absurd rfl (unknown (.sourceFile 0))
    case h_5 => exact absurd rfl (unknown (.methodParameters []))
    case h_6 => exact absurd rfl (unknown (.annotations true []))
    case h_7 => exact absurd rfl (unknown (.annotations false []))
    case h_8 => exact absurd rfl (unknown (.parameterAnnotations true []))
    case h_9 => exact absurd rfl (unknown (.parameterAnnotations false []))
    case h_10 => exact absurd rfl (unknown (.innerClasses []))
    case h_11 => exact absurd rfl (unknown (.enclosingMethod 0 0))
    case h_12 => exact absurd rfl (unknown (.nestHost 0))
    case h_13 => exact absurd rfl (unknown (.nestMembers []))
    case h_14 => exact absurd rfl (unknown (.lineNumberTable []))
    case h_15 => exact absurd rfl (unknown (.localVariableTable []))
    case h_16 => exact absurd rfl (unknown (.woven ⟨0, false⟩))
    case h_17 => cases known

/-- Attributes that are read are well-formed. -/
theorem wellFormed_of_read {depth : Nat} {a : Attribute} {s s' : Input}
    (h : read options p depth s = .ok a s') : a.WellFormed options.annotationDepth p :=
  read_rule (fun named some_code => .code named (Nat.pos_of_ne_zero some_code)) .plain
    (fun _ named other unknown => .raw named (name_ne_of_unknown other unknown)) h

/-- Well-formed attributes are readable, with any pool that has the same constants. -/
theorem WellFormed.readable {a : Attribute} (h : a.WellFormed options.annotationDepth p)
    (same : q.entries = p.entries) : a.Readable options q := by
  have held {name : UInt16} {text : String} (named : p.utf8 name = .ok text) :
      q.Holds name (.utf8 text) :=
    (Pool.holds_of_utf8 named).mono (.of_entries same)
  induction h with
  | code named some_code short _ ih => exact readable_code (held named) (by omega) short ih
  | plain named standard plain within => exact readable_plain (held named) standard plain within
  | @raw name text bytes named unknown =>
    have other : text ≠ "Code" := by
      rintro rfl
      exact unknown (.code default) rfl
    exact readable_raw (held named) other (readPlain_eq_none unknown) bytes

end Attribute

/-- A member whose name and descriptor are texts. -/
structure Member.WellFormed (limit : Nat) (p : Pool) (m : Member) : Prop where
  name : ∃ text, p.utf8 m.name = .ok text
  descriptor : ∃ text, p.utf8 m.descriptor = .ok text
  attributes : ∀ a ∈ m.attributes, a.WellFormed limit p

theorem Member.wellFormed_of_read {p : Pool} {depth : Nat} {m : Member} {s s' : Input}
    (h : read options p depth s = .ok m s') : m.WellFormed options.annotationDepth p := by
  obtain ⟨named, typed, attributes⟩ := read_eq_ok h
  refine ⟨named, typed, fun a mem => ?_⟩
  obtain ⟨t, t', read⟩ := attributes a mem
  exact Attribute.wellFormed_of_read read

theorem Member.WellFormed.readable {p q : Pool} {m : Member}
    (h : m.WellFormed options.annotationDepth p) (same : q.entries = p.entries) :
    m.Readable options q where
  name := h.name.imp fun _ named => (Pool.holds_of_utf8 named).mono (.of_entries same)
  descriptor := h.descriptor.imp fun _ typed => (Pool.holds_of_utf8 typed).mono (.of_entries same)
  attributes a mem := (h.attributes a mem).readable same

/-! ## Class files -/

namespace ClassFile

/-- A class file whose indices refer to what they should. -/
structure WellFormed (limit : Nat) (c : ClassFile) : Prop where
  pool : c.pool.Laid
  version : 45 ≤ c.majorVersion
  thisClass : ∃ name, c.pool.className c.thisClass = .ok name
  superClass : c.superClass ≠ 0 → ∃ name, c.pool.className c.superClass = .ok name
  interfaces : ∀ index ∈ c.interfaces, ∃ name, c.pool.className index = .ok name
  fields : ∀ m ∈ c.fields, m.WellFormed limit c.pool
  methods : ∀ m ∈ c.methods, m.WellFormed limit c.pool
  attributes : ∀ a ∈ c.attributes, a.WellFormed limit c.pool

/-- Class files that are read are well-formed. -/
theorem wellFormed_of_ofBytes {image : Bytes} {c : ClassFile} (h : ofBytes options image = .ok c) :
    c.WellFormed options.annotationDepth := by
  obtain ⟨c, read, h⟩ := except_bind_eq_ok.1 (except_mapError_eq_ok h)
  obtain ⟨⟨⟩, named, h⟩ := except_bind_eq_ok.1 h
  cases h
  obtain ⟨s', read⟩ := Reader.parse_eq_ok read
  obtain ⟨version, -, s₁, s₂, s₃, s₄, s₅, s₆, s₇, s₈, s₉, s₁₀, -, -, -, pooled, -, -, -, -,
    fielded, methodic, attached⟩ := read_eq_ok read
  obtain ⟨name, known, named⟩ := except_bind_eq_ok.1 named
  obtain ⟨super, above, named⟩ := except_bind_eq_ok.1 named
  obtain ⟨names, listed, -⟩ := except_bind_eq_ok.1 named
  refine ⟨(Pool.sound_of_read pooled).1.laid, version, ⟨name, known⟩, fun some_super => ?_,
    fun index mem => except_ok_of_mem_mapM listed mem, fun m mem => ?_, fun m mem => ?_,
    fun a mem => ?_⟩
  · rw [superName, if_neg some_super] at above
    obtain ⟨found, resolved, -⟩ := except_map_eq_ok.1 above
    exact ⟨found, resolved⟩
  · obtain ⟨t, t', read⟩ := (Reader.table_eq_ok fielded).2 m mem
    exact Member.wellFormed_of_read read
  · obtain ⟨t, t', read⟩ := (Reader.table_eq_ok methodic).2 m mem
    exact Member.wellFormed_of_read read
  · obtain ⟨t, t', read⟩ := (Reader.table_eq_ok attached).2 a mem
    exact Attribute.wellFormed_of_read read

namespace WellFormed

variable {c : ClassFile}

theorem checkNames (h : c.WellFormed limit) : c.checkNames = .ok () := by
  obtain ⟨name, named⟩ := h.thisClass
  have above : ∃ above, c.superName = .ok above := by
    unfold superName
    split
    · exact ⟨none, rfl⟩
    · rename_i some_super
      obtain ⟨found, resolved⟩ := h.superClass some_super
      exact ⟨some found, except_map_eq_ok.2 ⟨found, resolved, rfl⟩⟩
  obtain ⟨above, resolved⟩ := above
  obtain ⟨names, each⟩ := exists_forall₂ h.interfaces
  exact except_bind_eq_ok.2 ⟨name, named, except_bind_eq_ok.2 ⟨above, resolved,
    except_bind_eq_ok.2 ⟨names, except_mapM_eq_ok.2 each, rfl⟩⟩⟩

/-- A well-formed class file is readable with a pool that has the same constants and is sound. -/
theorem readable (h : c.WellFormed options.annotationDepth) {q : Pool} (sound : q.Sound)
    (same : q.entries = c.pool.entries) : ({ c with pool := q } : ClassFile).Readable options where
  pool := sound
  version := h.version
  named := checkNames_mono h.checkNames (.of_entries same) rfl rfl rfl
  fields m mem := (h.fields m mem).readable same
  methods m mem := (h.methods m mem).readable same
  attributes a mem := (h.attributes a mem).readable same

end WellFormed

theorem toBytes_congr {c : ClassFile} {q : Pool} (same : q.entries = c.pool.entries) :
    ({ c with pool := q } : ClassFile).toBytes = c.toBytes := by
  simp only [toBytes, Pool.write_congr same]

/-- A well-formed class file is what its image is read as, with the same constants in its pool. -/
theorem decodes_toBytes {c : ClassFile} (h : c.WellFormed options.annotationDepth) {bs : Bytes}
    (written : c.toBytes = .ok bs) :
    ∃ q : Pool, q.entries = c.pool.entries ∧ ofBytes options bs = .ok { c with pool := q } := by
  obtain ⟨p, sound, same⟩ := h.pool.exists_sound
  rw [← toBytes_congr same] at written
  obtain ⟨-, q, entries, read⟩ := ofBytes_toBytes (h.readable sound same) written
  exact ⟨q, entries.trans same, read⟩

/-- A class of a field with a value, a method with lines and a mark that has no other body. -/
def marked : ClassFile where
  minorVersion := 0
  majorVersion := 52
  pool := ⟨#[.unusable, .utf8 "A", .classRef 1, .utf8 "J", .long 7, .unusable, .utf8 "ConstantValue",
    .utf8 "Code", .utf8 "()V", .utf8 "LineNumberTable", .utf8 "Mark"], ∅⟩
  access := ⟨0x21⟩
  thisClass := 2
  superClass := 0
  interfaces := []
  fields := [⟨⟨0x18⟩, 1, 3, [⟨6, .constantValue 4⟩]⟩]
  methods := [⟨⟨8⟩, 1, 8, [⟨7, .code ⟨0, 0, [0xB1], [], [⟨9, .lineNumberTable [⟨0, 1⟩]⟩]⟩⟩]⟩]
  attributes := [⟨10, .raw [1, 2]⟩]

theorem wellFormed_marked : marked.WellFormed 32 := by
  have value : Attribute.WellFormed 32 marked.pool ⟨6, .constantValue 4⟩ :=
    .plain (show marked.pool.utf8 6 = .ok "ConstantValue" from rfl) rfl rfl trivial
  have lines : Attribute.WellFormed 32 marked.pool ⟨9, .lineNumberTable [⟨0, 1⟩]⟩ :=
    .plain (show marked.pool.utf8 9 = .ok "LineNumberTable" from rfl) rfl rfl trivial
  have code : Attribute.WellFormed 32 marked.pool
      ⟨7, .code ⟨0, 0, [0xB1], [], [⟨9, .lineNumberTable [⟨0, 1⟩]⟩]⟩⟩ :=
    .code rfl (by decide) (by decide) (by simpa using lines)
  have mark : Attribute.WellFormed 32 marked.pool ⟨10, .raw [1, 2]⟩ := by
    refine .raw (show marked.pool.utf8 10 = .ok "Mark" from rfl) fun body same => ?_
    cases body <;> simp [AttributeBody.name?] at same <;> split at same <;> simp at same
  constructor
  case pool =>
    exact ⟨[.utf8 "A", .classRef 1, .utf8 "J", .long 7, .utf8 "ConstantValue",
      .utf8 "Code", .utf8 "()V", .utf8 "LineNumberTable", .utf8 "Mark"], rfl, by simp⟩
  case version => decide
  case thisClass => exact ⟨_, rfl⟩
  case superClass => exact fun h => absurd rfl h
  case interfaces => simp [marked]
  case fields =>
    intro m mem
    obtain rfl := List.mem_singleton.1 mem
    exact ⟨⟨_, rfl⟩, ⟨_, rfl⟩, by simpa using value⟩
  case methods =>
    intro m mem
    obtain rfl := List.mem_singleton.1 mem
    exact ⟨⟨_, rfl⟩, ⟨_, rfl⟩, by simpa using code⟩
  case attributes => simpa [marked] using mark

theorem decodes_toBytes_marked : marked.WellFormed 32 ∧ ∃ bs, marked.toBytes = .ok bs ∧
    ∃ q : Pool, q.entries = marked.pool.entries ∧ ofBytes {} bs = .ok { marked with pool := q } :=
  ⟨wellFormed_marked, _, rfl, decodes_toBytes wellFormed_marked rfl⟩

end ClassFile

end Weft
