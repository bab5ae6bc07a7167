import Weft.ClassFile.Basic
import Weft.Proofs.ClassFile.Attributes

/-!
# Images written and read back

A class file is readable if its pool is sound, its names resolve and its attributes are readable.
Class files that are read are readable, and a readable class file is read back from its image with
the same constants and the same members.
-/

namespace Weft

variable {options : DecodeOptions}

/-! ## Members -/

/-- A member that is read back from what is written for it. -/
structure Member.Readable (options : DecodeOptions) (p : Pool) (m : Member) : Prop where
  name : ∃ text, p.Holds m.name (.utf8 text)
  descriptor : ∃ text, p.Holds m.descriptor (.utf8 text)
  attributes : ∀ a ∈ m.attributes, a.Readable options p

namespace Member

variable {p q : Pool}

theorem Readable.mono {m : Member} (h : m.Readable options p) (grown : p.Extends q) :
    m.Readable options q where
  name := h.name.imp fun _ named => named.mono grown
  descriptor := h.descriptor.imp fun _ typed => typed.mono grown
  attributes a mem := (h.attributes a mem).mono grown

theorem takes_write {m : Member} (h : m.Readable options p) (grown : p.Extends q)
    (small : q.size < 65536) {bs : Bytes} (written : m.write = .ok bs) {depth : Nat}
    (deep : bs.length < depth) (pos : Nat) : (read options q depth).Takes pos bs m := by
  obtain ⟨table, attached, rfl⟩ := except_map_eq_ok.1 written
  obtain ⟨name, named⟩ := h.name
  obtain ⟨descriptor, typed⟩ := h.descriptor
  simp only [List.length_append] at deep
  have attributes : ∀ pos, (Attribute.readTable options q depth).Takes pos table m.attributes :=
    Attribute.takes_table h.attributes grown small attached (by omega)
  refine (Reader.Takes.u16 _).bind ((Reader.Takes.u16 _).bind ((Reader.Takes.u16 _).bind ?_))
  rw [← List.append_nil table]
  refine (attributes _).bind ?_
  have resolved : (do let _ ← q.utf8 m.name; q.utf8 m.descriptor : Except Error String) =
      .ok descriptor := by
    rw [(named.mono grown).utf8 (by omega), (typed.mono grown).utf8 (by omega)]
    rfl
  rw [resolved]
  exact .pure m

theorem writeAll_eq_ok {members : List Member} {bs : Bytes} :
    writeAll members = .ok bs ↔ Tabled (fun m part => m.write = .ok part) members bs := by
  unfold writeAll
  dsimp only
  constructor
  · intro h
    split at h
    · rename_i few
      obtain ⟨parts, each, rfl⟩ := except_map_eq_ok.1 h
      exact ⟨few, parts, except_mapM_eq_ok.1 each, rfl⟩
    · cases h
  · rintro ⟨few, parts, each, rfl⟩
    rw [if_pos few]
    exact except_map_eq_ok.2 ⟨parts, except_mapM_eq_ok.2 each, rfl⟩

theorem takes_writeAll {members : List Member} (h : ∀ m ∈ members, m.Readable options p)
    (grown : p.Extends q) (small : q.size < 65536) {bs : Bytes}
    (written : writeAll members = .ok bs) {depth : Nat} (deep : bs.length < depth) (pos : Nat) :
    (Reader.table (read options q depth)).Takes pos bs members := by
  refine .table ((writeAll_eq_ok.1 written).imp fun m mem part shorter written pos => ?_)
  exact takes_write (h m mem) grown small written (Nat.lt_trans shorter deep) pos

/-- What reading a member says about it. -/
theorem read_eq_ok {depth : Nat} {m : Member} {s s' : Input}
    (h : read options p depth s = .ok m s') :
    (∃ name, p.utf8 m.name = .ok name) ∧ (∃ descriptor, p.utf8 m.descriptor = .ok descriptor) ∧
      ∀ a ∈ m.attributes, ∃ t t', Attribute.read options p depth t = .ok a t' := by
  obtain ⟨access, t, -, h⟩ := step_bind_eq_ok.1 h
  obtain ⟨name, t, -, h⟩ := step_bind_eq_ok.1 h
  obtain ⟨descriptor, t, -, h⟩ := step_bind_eq_ok.1 h
  obtain ⟨attributes, t, read, h⟩ := step_bind_eq_ok.1 h
  cases resolved : (do let _ ← p.utf8 name; p.utf8 descriptor : Except Error String) with
  | error e =>
    rw [resolved] at h
    cases h
  | ok text =>
    rw [resolved] at h
    obtain ⟨rfl, -⟩ := step_pure_eq_ok.1 h
    obtain ⟨text', named, typed⟩ := except_bind_eq_ok.1 resolved
    exact ⟨⟨text', named⟩, ⟨text, typed⟩, (Reader.table_eq_ok read).2⟩

theorem readable_of_read {depth : Nat} {m : Member} {s s' : Input}
    (h : read options p depth s = .ok m s') : m.Readable options p := by
  obtain ⟨⟨name, named⟩, ⟨descriptor, typed⟩, attributes⟩ := read_eq_ok h
  refine ⟨⟨name, Pool.holds_of_utf8 named⟩, ⟨descriptor, Pool.holds_of_utf8 typed⟩, fun a mem => ?_⟩
  obtain ⟨t, t', read⟩ := attributes a mem
  exact Attribute.readable_of_read read

end Member

/-! ## Class files -/

namespace ClassFile

/-- A class file that is read back from its image. -/
structure Readable (options : DecodeOptions) (c : ClassFile) : Prop where
  pool : c.pool.Sound
  version : leastVersion ≤ c.majorVersion
  named : c.checkNames = .ok ()
  fields : ∀ m ∈ c.fields, m.Readable options c.pool
  methods : ∀ m ∈ c.methods, m.Readable options c.pool
  attributes : ∀ a ∈ c.attributes, a.Readable options c.pool

/-- The names that a class resolves are resolved with more constants. -/
theorem checkNames_mono {c c' : ClassFile} (h : c.checkNames = .ok ())
    (grown : c.pool.Extends c'.pool) (thisClass : c'.thisClass = c.thisClass)
    (superClass : c'.superClass = c.superClass) (interfaces : c'.interfaces = c.interfaces) :
    c'.checkNames = .ok () := by
  obtain ⟨name, named, h⟩ := except_bind_eq_ok.1 h
  obtain ⟨super, above, h⟩ := except_bind_eq_ok.1 h
  obtain ⟨names, known, -⟩ := except_bind_eq_ok.1 h
  refine except_bind_eq_ok.2 ⟨name, ?_, except_bind_eq_ok.2 ⟨super, ?_,
    except_bind_eq_ok.2 ⟨names, ?_, rfl⟩⟩⟩
  · rw [ClassFile.name, thisClass]
    exact Pool.className_mono grown named
  · unfold superName at above ⊢
    rw [superClass]
    split at above
    · rw [if_pos ‹_›, above]
    · obtain ⟨found, read, rfl⟩ := except_map_eq_ok.1 above
      rw [if_neg ‹_›, Pool.className_mono grown read]
      rfl
  · rw [interfaceNames, interfaces]
    exact except_mapM_eq_ok.2 ((except_mapM_eq_ok.1 known).imp fun _ _ => Pool.className_mono grown)

/-- What is written of a readable class file is read as the class file, up to what its pool
remembers. -/
theorem read_toBytes {c : ClassFile} (h : c.Readable options) {bs : Bytes}
    (written : c.toBytes = .ok bs) :
    c.pool.size < 65536 ∧ ∃ q, q.entries = c.pool.entries ∧
      (read options bs.length).parse bs = .ok { c with pool := q } := by
  obtain ⟨pool, pooled, written⟩ := except_bind_eq_ok.1 written
  obtain ⟨interfaces, listed, written⟩ := except_bind_eq_ok.1 written
  obtain ⟨fields, fielded, written⟩ := except_bind_eq_ok.1 written
  obtain ⟨methods, methodic, written⟩ := except_bind_eq_ok.1 written
  obtain ⟨attributes, attached, rfl⟩ := except_map_eq_ok.1 written
  obtain ⟨small, q, entries, pools⟩ := Pool.takes_write h.pool pooled
  refine ⟨small, q, entries, ?_⟩
  have grown := Pool.Extends.of_entries entries
  have small' : q.size < 65536 := by rwa [Pool.size, entries]
  simp only [List.flatMap_cons, List.flatMap_nil, List.append_nil, List.append_assoc]
  generalize length : List.length _ = n
  simp only [List.length_append, Bytes.length_ofU32, Bytes.length_ofU16] at length
  refine Reader.Ends.parse ?_
  rw [read, if_neg (by omega)]
  refine (Reader.Takes.u32 _).ends ?_
  rw [if_neg (by simp)]
  refine (Reader.Takes.u16 _).ends ((Reader.Takes.u16 _).ends ?_)
  rw [if_neg (UInt16.not_lt.2 h.version)]
  refine (pools _).ends ((Reader.Takes.u16 _).ends ((Reader.Takes.u16 _).ends
    ((Reader.Takes.u16 _).ends ((Reader.Takes.tableBytes (fun _ _ _ => .u16 _) listed).ends
      ((Member.takes_writeAll h.fields grown small' fielded (by omega) _).ends
        ((Member.takes_writeAll h.methods grown small' methodic (by omega) _).ends ?_))))))
  rw [← List.append_nil attributes]
  refine (Attribute.takes_table h.attributes grown small' attached (by omega) _).ends ?_
  exact ⟨_, rfl⟩

/-- A readable class file is read back from its image, up to what its pool remembers. -/
theorem ofBytes_toBytes {c : ClassFile} (h : c.Readable options) {bs : Bytes}
    (written : c.toBytes = .ok bs) :
    c.pool.size < 65536 ∧ ∃ q, q.entries = c.pool.entries ∧
      ofBytes options bs = .ok { c with pool := q } := by
  obtain ⟨small, q, entries, read⟩ := read_toBytes h written
  refine ⟨small, q, entries, ?_⟩
  have named : ({ c with pool := q } : ClassFile).checkNames = .ok () :=
    checkNames_mono h.named (.of_entries entries) rfl rfl rfl
  simp only [ofBytes, read]
  show ((do ({ c with pool := q } : ClassFile).checkNames; return { c with pool := q }) :
    Except Error ClassFile).mapError _ = _
  rw [named]
  rfl

/-- The steps by which a class is read: each starts where the one before it stopped, and nothing is
left behind the last. -/
theorem read_eq_ok {length : Nat} {c : ClassFile} {s s' : Input}
    (h : read options length s = .ok c s') : leastVersion ≤ c.majorVersion ∧ s'.rest = [] ∧
    ∃ s₁ s₂ s₃ s₄ s₅ s₆ s₇ s₈ s₉ s₁₀, Reader.u32 s = .ok magic s₁ ∧
      Reader.u16 s₁ = .ok c.minorVersion s₂ ∧ Reader.u16 s₂ = .ok c.majorVersion s₃ ∧
      Pool.read s₃ = .ok c.pool s₄ ∧ Reader.u16 s₄ = .ok c.access.bits s₅ ∧
      Reader.u16 s₅ = .ok c.thisClass s₆ ∧ Reader.u16 s₆ = .ok c.superClass s₇ ∧
      Reader.table Reader.u16 s₇ = .ok c.interfaces s₈ ∧
      Reader.table (Member.read options c.pool length) s₈ = .ok c.fields s₉ ∧
      Reader.table (Member.read options c.pool length) s₉ = .ok c.methods s₁₀ ∧
      Attribute.readTable options c.pool length s₁₀ = .ok c.attributes s' := by
  unfold read at h
  split at h
  · cases h
  obtain ⟨found, s₁, first, h⟩ := step_bind_eq_ok.1 h
  split at h
  · cases h
  rename_i same
  obtain ⟨minorVersion, s₂, minor, h⟩ := step_bind_eq_ok.1 h
  obtain ⟨majorVersion, s₃, major, h⟩ := step_bind_eq_ok.1 h
  split at h
  · cases h
  rename_i version
  obtain ⟨pool, s₄, pooled, h⟩ := step_bind_eq_ok.1 h
  obtain ⟨access, s₅, flags, h⟩ := step_bind_eq_ok.1 h
  obtain ⟨thisClass, s₆, this, h⟩ := step_bind_eq_ok.1 h
  obtain ⟨superClass, s₇, above, h⟩ := step_bind_eq_ok.1 h
  obtain ⟨interfaces, s₈, listed, h⟩ := step_bind_eq_ok.1 h
  obtain ⟨fields, s₉, fielded, h⟩ := step_bind_eq_ok.1 h
  obtain ⟨methods, s₁₀, methodic, h⟩ := step_bind_eq_ok.1 h
  obtain ⟨attributes, s₁₁, attached, h⟩ := step_bind_eq_ok.1 h
  rw [step_get_bind] at h
  split at h
  · cases h
  rename_i empty
  obtain ⟨rfl, rfl⟩ := step_pure_eq_ok.1 h
  obtain rfl : found = magic := by simpa using same
  exact ⟨UInt16.not_lt.1 version, by simpa using empty, s₁, s₂, s₃, s₄, s₅, s₆, s₇, s₈, s₉, s₁₀,
    first, minor, major, pooled, flags, this, above, listed, fielded, methodic, attached⟩

/-- What reading an image says about the class. -/
structure Decoded (options : DecodeOptions) (c : ClassFile) : Prop where
  readable : c.Readable options
  names : ∀ m ∈ c.fields ++ c.methods, (∃ name, c.pool.utf8 m.name = .ok name) ∧
    ∃ descriptor, c.pool.utf8 m.descriptor = .ok descriptor
  few : c.methods.length < 65536
  labelled : ∀ a ∈ c.attributes, a.Labelled c.pool

theorem decoded_of_read {length : Nat} {c : ClassFile} {s s' : Input}
    (h : read options length s = .ok c s') (named : c.checkNames = .ok ()) :
    Decoded options c := by
  obtain ⟨version, -, s₁, s₂, s₃, s₄, s₅, s₆, s₇, s₈, s₉, s₁₀, -, -, -, pooled, -, -, -, -,
    fielded, methodic, attached⟩ := read_eq_ok h
  have each_field := (Reader.table_eq_ok fielded).2
  obtain ⟨few, each_method⟩ := Reader.table_eq_ok methodic
  have each_attribute := (Reader.table_eq_ok attached).2
  refine ⟨⟨(Pool.sound_of_read pooled).1, version, named, ?_, ?_, ?_⟩, ?_, few, ?_⟩
  · intro m mem
    obtain ⟨t, t', read⟩ := each_field m mem
    exact Member.readable_of_read read
  · intro m mem
    obtain ⟨t, t', read⟩ := each_method m mem
    exact Member.readable_of_read read
  · intro a mem
    obtain ⟨t, t', read⟩ := each_attribute a mem
    exact Attribute.readable_of_read read
  · intro m mem
    rcases List.mem_append.1 mem with mem | mem
    · obtain ⟨t, t', read⟩ := each_field m mem
      exact ⟨(Member.read_eq_ok read).1, (Member.read_eq_ok read).2.1⟩
    · obtain ⟨t, t', read⟩ := each_method m mem
      exact ⟨(Member.read_eq_ok read).1, (Member.read_eq_ok read).2.1⟩
  · intro a mem
    obtain ⟨t, t', read⟩ := each_attribute a mem
    exact Attribute.labelled_of_read read

/-- The pool of an image and the place of the class's name, which stand before all that options
decide on. -/
def head : Reader (Pool × UInt16) := do
  let _ ← Reader.u32
  let _ ← Reader.u16
  let _ ← Reader.u16
  let pool ← Pool.read
  let _ ← Reader.u16
  return (pool, ← Reader.u16)

theorem head_of_read {length : Nat} {c : ClassFile} {s s' : Input}
    (h : read options length s = .ok c s') : ∃ t, head s = .ok (c.pool, c.thisClass) t := by
  obtain ⟨-, -, s₁, s₂, s₃, s₄, s₅, s₆, s₇, s₈, s₉, s₁₀, first, minor, major, pooled, flags, this,
    -⟩ := read_eq_ok h
  exact ⟨s₆, step_bind_eq_ok.2 ⟨_, _, first, step_bind_eq_ok.2 ⟨_, _, minor, step_bind_eq_ok.2
    ⟨_, _, major, step_bind_eq_ok.2 ⟨_, _, pooled, step_bind_eq_ok.2 ⟨_, _, flags,
      step_bind_eq_ok.2 ⟨_, _, this, rfl⟩⟩⟩⟩⟩⟩⟩

/-- Under all options an image is that of a class of the same name. -/
theorem name_of_ofBytes {options' : DecodeOptions} {image : Bytes} {c c' : ClassFile}
    (h : ofBytes options image = .ok c) (h' : ofBytes options' image = .ok c') :
    c'.name = c.name := by
  obtain ⟨d, read, h⟩ := except_bind_eq_ok.1 (except_mapError_eq_ok h)
  obtain ⟨d', read', h'⟩ := except_bind_eq_ok.1 (except_mapError_eq_ok h')
  obtain ⟨⟨⟩, -, h⟩ := except_bind_eq_ok.1 h
  obtain ⟨⟨⟩, -, h'⟩ := except_bind_eq_ok.1 h'
  cases h
  cases h'
  obtain ⟨s, read⟩ := Reader.parse_eq_ok read
  obtain ⟨s', read'⟩ := Reader.parse_eq_ok read'
  obtain ⟨t, start⟩ := head_of_read read
  obtain ⟨t', start'⟩ := head_of_read read'
  obtain ⟨same, -⟩ := EStateM.Result.ok.inj (start.symm.trans start')
  obtain ⟨pool, thisClass⟩ := Prod.mk.inj same
  rw [name, name, pool, thisClass]

theorem decoded_of_ofBytes {image : Bytes} {c : ClassFile} (h : ofBytes options image = .ok c) :
    Decoded options c := by
  obtain ⟨c, read, h⟩ := except_bind_eq_ok.1 (except_mapError_eq_ok h)
  obtain ⟨⟨⟩, named, h⟩ := except_bind_eq_ok.1 h
  cases h
  obtain ⟨s', read⟩ := Reader.parse_eq_ok read
  exact decoded_of_read read named

end ClassFile

end Weft
