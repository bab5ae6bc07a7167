import Weft.Proofs.ClassFile.Histories

/-!
# Tables and their lengths

A class file is written only if each of its tables has a length that fits where it is written, and
what is not written is refused as not supported. The tables inside annotations are the exception:
their lengths keep the low sixteen bits, so that of a longer table only the first entries are read
back, and the others are taken for what follows.
-/

namespace Weft

/-! ## Refusals -/

/-- What fails, fails as not supported. -/
def OnlyUnsupported {α : Type} (x : Except Error α) : Prop :=
  ∀ e, x = .error e → ∃ cause, e = .notSupported cause

namespace OnlyUnsupported

variable {α β : Type}

theorem ok (a : α) : OnlyUnsupported (.ok a) := nofun

theorem error (cause : Unsupported) :
    OnlyUnsupported (.error (.notSupported cause) : Except Error α) := by
  rintro _ ⟨⟩
  exact ⟨cause, rfl⟩

theorem ite {c : Prop} [Decidable c] {x y : Except Error α} (h : OnlyUnsupported x)
    (h' : OnlyUnsupported y) : OnlyUnsupported (if c then x else y) := by
  split
  · exact h
  · exact h'

theorem bind {x : Except Error α} {f : α → Except Error β} (h : OnlyUnsupported x)
    (h' : ∀ a, OnlyUnsupported (f a)) : OnlyUnsupported (x >>= f) := by
  cases x with
  | ok a => exact h' a
  | error e =>
    rintro _ ⟨⟩
    exact h e rfl

theorem mapM {f : α → Except Error β} {as : List α} (each : ∀ a ∈ as, OnlyUnsupported (f a)) :
    OnlyUnsupported (as.mapM f) := by
  induction as with
  | nil => exact ok []
  | cons a as ih =>
    rw [List.mapM_cons]
    exact (each a List.mem_cons_self).bind fun b =>
      (ih fun a' mem => each a' (List.mem_cons_of_mem a mem)).bind fun bs => ok (b :: bs)

end OnlyUnsupported

theorem onlyUnsupported_tableBytes {α : Type} (f : α → Bytes) (as : List α) :
    OnlyUnsupported (tableBytes f as) := (OnlyUnsupported.ok _).ite (.error _)

theorem onlyUnsupported_blockBytes (cause : Unsupported) (block : Bytes) :
    OnlyUnsupported (blockBytes cause block) := (OnlyUnsupported.ok _).ite (.error _)

theorem onlyUnsupported_parameterAnnotationBytes (parameters : List (List AnnotationData)) :
    OnlyUnsupported (parameterAnnotationBytes parameters) :=
  .ite ((OnlyUnsupported.mapM fun _ _ => onlyUnsupported_tableBytes _ _).bind fun _ => .ok _)
    (.error _)

mutual

theorem Attribute.onlyUnsupported_write : ∀ a : Attribute, OnlyUnsupported a.write
  | ⟨_, body⟩ => body.onlyUnsupported_write.bind fun block =>
    (onlyUnsupported_blockBytes .attributeSize block).bind fun _ => .ok _

theorem AttributeBody.onlyUnsupported_write : ∀ body : AttributeBody, OnlyUnsupported body.write
  | .code c => c.onlyUnsupported_write
  | .constantValue _ | .signature _ | .sourceFile _ | .nestHost _ => .ok _
  | .exceptions _ | .nestMembers _ => onlyUnsupported_tableBytes _ _
  | .methodParameters _ => .ite (.ok _) (.error _)
  | .annotations _ _ => onlyUnsupported_tableBytes _ _
  | .parameterAnnotations _ parameters => onlyUnsupported_parameterAnnotationBytes parameters
  | .innerClasses _ | .lineNumberTable _ | .localVariableTable _ => onlyUnsupported_tableBytes _ _
  | .enclosingMethod _ _ | .woven _ | .raw _ => .ok _

theorem CodeAttribute.onlyUnsupported_write : ∀ c : CodeAttribute, OnlyUnsupported c.write
  | ⟨_, _, _, _, attributes⟩ => (onlyUnsupported_blockBytes _ _).bind fun _ =>
    (onlyUnsupported_tableBytes _ _).bind fun _ =>
      .ite ((onlyUnsupported_writeAttributes attributes).bind fun _ => .ok _) (.error _)

theorem onlyUnsupported_writeAttributes :
    ∀ as : List Attribute, OnlyUnsupported (writeAttributes as)
  | [] => .ok _
  | a :: as => a.onlyUnsupported_write.bind fun _ =>
    (onlyUnsupported_writeAttributes as).bind fun _ => .ok _

end

theorem onlyUnsupported_attributeTableBytes (attributes : List Attribute) :
    OnlyUnsupported (attributeTableBytes attributes) :=
  .ite ((onlyUnsupported_writeAttributes attributes).bind fun _ => .ok _) (.error _)

theorem Member.onlyUnsupported_write (m : Member) : OnlyUnsupported m.write :=
  (onlyUnsupported_attributeTableBytes m.attributes).bind fun _ => .ok _

theorem Member.onlyUnsupported_writeAll (members : List Member) :
    OnlyUnsupported (writeAll members) :=
  .ite ((OnlyUnsupported.mapM fun m _ => m.onlyUnsupported_write).bind fun _ => .ok _) (.error _)

theorem Pool.onlyUnsupported_constantBytes (c : Constant) : OnlyUnsupported (constantBytes c) := by
  cases c with
  | utf8 text => exact .ite (.ok _) (.error _)
  | _ => exact .ok _

theorem Pool.onlyUnsupported_write (p : Pool) : OnlyUnsupported p.write :=
  .ite ((OnlyUnsupported.mapM fun c _ => onlyUnsupported_constantBytes c).bind fun _ => .ok _)
    (.error _)

/-- Writing a class file fails in one way. -/
theorem ClassFile.onlyUnsupported_toBytes (c : ClassFile) : OnlyUnsupported c.toBytes :=
  c.pool.onlyUnsupported_write.bind fun _ => (onlyUnsupported_tableBytes _ _).bind fun _ =>
    (Member.onlyUnsupported_writeAll _).bind fun _ =>
      (Member.onlyUnsupported_writeAll _).bind fun _ =>
        (onlyUnsupported_attributeTableBytes _).bind fun _ => .ok _

/-! ## Room -/

/-- The tables of the body have lengths that fit in front of them, those inside annotations and of
the attributes of code apart. -/
def AttributeBody.Fits : AttributeBody → Prop
  | .code c =>
    c.code.length < 4294967296 ∧ c.exceptions.length < 65536 ∧ c.attributes.length < 65536
  | .exceptions indices | .nestMembers indices => indices.length < 65536
  | .methodParameters parameters => parameters.length < 256
  | .annotations _ items => items.length < 65536
  | .parameterAnnotations _ parameters =>
    parameters.length < 256 ∧ ∀ items ∈ parameters, items.length < 65536
  | .innerClasses entries => entries.length < 65536
  | .lineNumberTable entries => entries.length < 65536
  | .localVariableTable entries => entries.length < 65536
  | .constantValue _ | .signature _ | .sourceFile _ | .nestHost _ | .enclosingMethod _ _ | .woven _
  | .raw _ => True

theorem length_of_tableBytes {α : Type} {f : α → Bytes} {as : List α} {bs : Bytes}
    (h : tableBytes f as = .ok bs) : as.length < 65536 := (tableBytes_eq_ok.1 h).few

theorem fits_of_parameterAnnotationBytes {parameters : List (List AnnotationData)} {bs : Bytes}
    (h : parameterAnnotationBytes parameters = .ok bs) :
    parameters.length < 256 ∧ ∀ items ∈ parameters, items.length < 65536 := by
  simp only [parameterAnnotationBytes] at h
  split at h
  · rename_i few
    obtain ⟨tables, made, -⟩ := except_map_eq_ok.1 h
    refine ⟨few, fun items mem => ?_⟩
    obtain ⟨table, written⟩ := except_ok_of_mem_mapM made mem
    exact length_of_tableBytes written
  · cases h

theorem Tabled.each {α : Type} {f : α → Except Error Bytes} {as : List α} {bs : Bytes}
    (h : Tabled (fun a part => f a = .ok part) as bs) {a : α} (mem : a ∈ as) :
    ∃ part, f a = .ok part := by
  obtain ⟨parts, each, -⟩ := h.parts
  obtain ⟨part, -, written⟩ := forall₂_mem_left each mem
  exact ⟨part, written⟩

theorem CodeAttribute.fits_of_write {c : CodeAttribute} {bs : Bytes} (h : c.write = .ok bs) :
    (AttributeBody.code c).Fits ∧ ∀ a ∈ c.attributes, ∃ part, a.write = .ok part := by
  obtain ⟨code, exceptions, table, coded, caught, attached, -⟩ := Attribute.codeBytes_eq_ok.1 h
  have attached := Attribute.tableBytes_eq_ok.1 attached
  refine ⟨⟨?_, length_of_tableBytes caught, attached.few⟩, fun a mem => attached.each mem⟩
  simp only [blockBytes] at coded
  split at coded
  · assumption
  · cases coded

theorem AttributeBody.fits_of_write {body : AttributeBody} {bs : Bytes} (h : body.write = .ok bs) :
    body.Fits := by
  cases body with
  | code c => exact (CodeAttribute.fits_of_write h).1
  | exceptions indices | nestMembers indices => exact length_of_tableBytes h
  | annotations visible items => exact length_of_tableBytes h
  | innerClasses entries => exact length_of_tableBytes h
  | lineNumberTable entries => exact length_of_tableBytes h
  | localVariableTable entries => exact length_of_tableBytes h
  | parameterAnnotations visible parameters => exact fits_of_parameterAnnotationBytes h
  | methodParameters parameters =>
    simp only [AttributeBody.write] at h
    split at h
    · assumption
    · cases h
  | _ => trivial

theorem Pool.length_of_write {p : Pool} {bs : Bytes} (h : p.write = .ok bs) {text : String}
    (mem : .utf8 text ∈ p.entries) : (Text.encodeModified text).length < 65536 := by
  unfold Pool.write at h
  split at h
  · obtain ⟨parts, each, -⟩ := except_map_eq_ok.1 h
    obtain ⟨part, written⟩ := except_ok_of_mem_mapM each (Array.mem_toList_iff.2 mem)
    simp only [constantBytes] at written
    split at written
    · assumption
    · cases written
  · cases h

theorem Member.attributes_of_writeAll {members : List Member} {bs : Bytes}
    (h : writeAll members = .ok bs) {m : Member} (mem : m ∈ members) :
    ∃ table, Tabled (fun a part => a.write = .ok part) m.attributes table := by
  obtain ⟨part, written⟩ := (writeAll_eq_ok.1 h).each mem
  obtain ⟨table, attached, -⟩ := except_map_eq_ok.1 written
  exact ⟨table, Attribute.tableBytes_eq_ok.1 attached⟩

namespace ClassFile

variable {c : ClassFile}

/-- The attribute is one of the class, of a member or of code. -/
inductive Has (c : ClassFile) : Attribute → Prop
  | own {a} : a ∈ c.attributes → Has c a
  | member {m a} : m ∈ c.fields ++ c.methods → a ∈ m.attributes → Has c a
  | inner {name code a} : Has c ⟨name, .code code⟩ → a ∈ code.attributes → Has c a

/-- The tables of the class have lengths that fit in front of them, but for those inside
annotations. -/
structure Fits (c : ClassFile) : Prop where
  pool : c.pool.size < 65536
  texts : ∀ text, .utf8 text ∈ c.pool.entries → (Text.encodeModified text).length < 65536
  interfaces : c.interfaces.length < 65536
  fields : c.fields.length < 65536
  methods : c.methods.length < 65536
  attributes : c.attributes.length < 65536
  members : ∀ m ∈ c.fields ++ c.methods, m.attributes.length < 65536
  bodies : ∀ a, c.Has a → a.body.Fits

theorem fits_of_toBytes {bs : Bytes} (h : c.toBytes = .ok bs) : c.Fits := by
  obtain ⟨pool, pooled, h⟩ := except_bind_eq_ok.1 h
  obtain ⟨interfaces, listed, h⟩ := except_bind_eq_ok.1 h
  obtain ⟨fields, fielded, h⟩ := except_bind_eq_ok.1 h
  obtain ⟨methods, methodic, h⟩ := except_bind_eq_ok.1 h
  obtain ⟨attributes, attached, -⟩ := except_map_eq_ok.1 h
  have own := Attribute.tableBytes_eq_ok.1 attached
  have members {m : Member} (mem : m ∈ c.fields ++ c.methods) :
      ∃ table, Tabled (fun a part => a.write = .ok part) m.attributes table :=
    (List.mem_append.1 mem).elim (Member.attributes_of_writeAll fielded)
      (Member.attributes_of_writeAll methodic)
  have written {a : Attribute} (has : c.Has a) : ∃ block, a.body.write = .ok block := by
    have body {a : Attribute} (h : ∃ part, a.write = .ok part) :
        ∃ block, a.body.write = .ok block := by
      obtain ⟨name, body⟩ := a
      obtain ⟨part, written⟩ := h
      obtain ⟨block, made, -⟩ := Attribute.write_eq_ok written
      exact ⟨block, made⟩
    induction has with
    | own mem => exact body (own.each mem)
    | member place mem =>
      obtain ⟨table, tabled⟩ := members place
      exact body (tabled.each mem)
    | inner _ mem ih =>
      obtain ⟨block, coded⟩ := ih
      exact body ((CodeAttribute.fits_of_write coded).2 _ mem)
  exact {
    pool := Pool.size_of_write pooled
    texts := fun text mem => Pool.length_of_write pooled mem
    interfaces := length_of_tableBytes listed
    fields := (Member.writeAll_eq_ok.1 fielded).few
    methods := (Member.writeAll_eq_ok.1 methodic).few
    attributes := own.few
    members := fun m mem => (members mem).elim fun _ tabled => tabled.few
    bodies := fun a has => (written has).elim fun _ made => AttributeBody.fits_of_write made }

/-- A class file with a table whose length does not fit in front of it is not written, and that is
the reason given, unless the table is inside an annotation. -/
theorem toBytes_of_not_fits (h : ¬ c.Fits) : ∃ cause, c.toBytes = .error (.notSupported cause) := by
  cases written : c.toBytes with
  | ok bs => exact absurd (fits_of_toBytes written) h
  | error e =>
    obtain ⟨cause, rfl⟩ := c.onlyUnsupported_toBytes e written
    exact ⟨cause, rfl⟩

end ClassFile

/-! ## Tables inside annotations -/

theorem Bytes.ofCount_mod (n : Nat) : ofCount (n % 65536) = ofCount n := by
  have same : UInt16.ofNat (n % 65536) = UInt16.ofNat n := by
    rw [← UInt16.toNat_inj]
    simp
  rw [ofCount, ofCount, same]

/-- The entries that a count of sixteen bits leaves of a list. -/
def reached {α : Type} (as : List α) : List α := as.take (as.length % 65536)

/-- The entries that a count of sixteen bits does not reach. -/
def unreached {α : Type} (as : List α) : List α := as.drop (as.length % 65536)

theorem length_reached {α : Type} (as : List α) : (reached as).length = as.length % 65536 := by
  rw [reached, List.length_take]
  exact Nat.min_eq_left (Nat.mod_le _ _)

theorem few_reached {α : Type} (as : List α) : (reached as).length < 65536 := by
  rw [length_reached]
  exact Nat.mod_lt _ (by decide)

theorem reached_append_unreached {α : Type} (as : List α) : reached as ++ unreached as = as :=
  List.take_append_drop _ _

namespace ElementValue

theorem writeNamed_append (xs ys : List (UInt16 × ElementValue)) :
    writeNamed (xs ++ ys) = writeNamed xs ++ writeNamed ys := by
  simp [writeNamed_eq]

theorem writeList_append (xs ys : List ElementValue) :
    writeList (xs ++ ys) = writeList xs ++ writeList ys := by
  simp [writeList_eq]

theorem counted_named (elements : List (UInt16 × ElementValue)) :
    Bytes.ofCount elements.length ++ writeNamed elements =
      Bytes.ofCount (reached elements).length ++ writeNamed (reached elements) ++
        writeNamed (unreached elements) := by
  rw [length_reached, Bytes.ofCount_mod, List.append_assoc, ← writeNamed_append,
    reached_append_unreached]

/-- What is written of an array is what is written of the values that the count reaches, and the
bytes of the others. -/
theorem write_array_reached (items : List ElementValue) :
    (array items).write = (array (reached items)).write ++ writeList (unreached items) := by
  rw [write, write, length_reached, Bytes.ofCount_mod, List.append_assoc, ← writeList_append,
    reached_append_unreached]

theorem write_nested_reached (type : UInt16) (elements : List (UInt16 × ElementValue)) :
    (nested type elements).write =
      (nested type (reached elements)).write ++ writeNamed (unreached elements) := by
  rw [write, write, counted_named]
  simp only [List.append_assoc]

end ElementValue

namespace AnnotationData

/-- What is written of an annotation is what is written of the elements that the count reaches, and
the bytes of the others. -/
theorem write_reached (a : AnnotationData) :
    a.write = (⟨a.type, reached a.elements⟩ : AnnotationData).write ++
      ElementValue.writeNamed (unreached a.elements) := by
  rw [write, write, ElementValue.counted_named]
  simp only [List.append_assoc]

/-- What is written of an annotation is read as one of the elements that the count reaches, and the
bytes of the others are left, whatever their number. -/
theorem read_write_reached {limit : Nat} {a : AnnotationData}
    (within : ∀ e ∈ reached a.elements, e.2.Within limit) (pos : Nat) (rest : Bytes) :
    ∃ pos', read limit ⟨pos, a.write ++ rest⟩ = .ok ⟨a.type, reached a.elements⟩
      ⟨pos', ElementValue.writeNamed (unreached a.elements) ++ rest⟩ := by
  have taken := takes_write (a := ⟨a.type, reached a.elements⟩) ⟨few_reached _, within⟩ pos
    (ElementValue.writeNamed (unreached a.elements) ++ rest)
  rw [← List.append_assoc, ← write_reached] at taken
  exact ⟨_, taken⟩

/-- An annotation of more elements than a count reaches is read back from no bytes at all. -/
theorem read_ne_of_long {limit : Nat} {a : AnnotationData} (long : 65536 ≤ a.elements.length)
    (s s' : Input) : read limit s ≠ .ok a s' := by
  intro read
  exact absurd (within_of_read read).few (Nat.not_lt.2 long)

/-- An annotation that names one class over and over. -/
def repeating (n : Nat) : AnnotationData := ⟨0, List.replicate n (0, .classInfo 0)⟩

theorem length_write_repeating (n : Nat) : (repeating n).write.length = 4 + n * 5 := by
  have elements :
      (ElementValue.writeNamed (List.replicate n (0, .classInfo 0))).length = n * 5 := by
    induction n with
    | zero => rfl
    | succ n ih =>
      have one : (ElementValue.classInfo 0).write.length = 3 := rfl
      rw [List.replicate_succ, ElementValue.writeNamed, List.length_append, List.length_append, ih,
        one, Bytes.length_ofU16]
      omega
  rw [repeating, write, List.length_append, List.length_append, elements, Bytes.ofCount,
    Bytes.length_ofU16, Bytes.length_ofU16, ← Nat.add_assoc]

theorem reached_repeating {n : Nat} (none : n % 65536 = 0) :
    reached (repeating n).elements = [] := by
  rw [reached, repeating, List.length_replicate, none, List.take_zero]

end AnnotationData

/-- An annotation is written whatever the number of its elements, while its bytes fit in the
attribute. -/
theorem Attribute.write_annotation (name : UInt16) (visible : Bool) {a : AnnotationData}
    (small : a.write.length + 2 < 4294967296) :
    ∃ bs, Attribute.write ⟨name, .annotations visible [a]⟩ = .ok bs := by
  have one : [a].length < 65536 := by simp
  have block : AttributeBody.write (.annotations visible [a]) =
      .ok (Bytes.ofU16 (UInt16.ofNat 1) ++ a.write) := by
    rw [AttributeBody.write, tableBytes, if_pos one, List.flatMap_singleton, List.length_singleton]
  have room : (Bytes.ofU16 (UInt16.ofNat 1) ++ a.write).length < 4294967296 := by
    rw [List.length_append, Bytes.length_ofU16]
    omega
  obtain ⟨part, sized⟩ : ∃ part, blockBytes .attributeSize
      (Bytes.ofU16 (UInt16.ofNat 1) ++ a.write) = .ok part := ⟨_, if_pos room⟩
  exact ⟨_, except_bind_eq_ok.2 ⟨_, block, except_map_eq_ok.2 ⟨_, sized, rfl⟩⟩⟩

namespace ClassFile

/-- A class file without members that has that attribute alone. -/
def bearing (a : Attribute) : ClassFile := ⟨0, 52, .empty, ⟨0⟩, 0, 0, [], [], [], [a]⟩

theorem toBytes_bearing {a : Attribute} {part : Bytes} (written : a.write = .ok part) :
    ∃ bs, (bearing a).toBytes = .ok bs := by
  have table : attributeTableBytes [a] = .ok (Bytes.ofU16 (UInt16.ofNat 1) ++ part) := by
    rw [Attribute.tableBytes_eq_ok]
    exact ⟨by simp, [part], .cons written .nil, by simp⟩
  exact ⟨_, except_bind_eq_ok.2 ⟨_, rfl, except_bind_eq_ok.2 ⟨_, rfl, except_bind_eq_ok.2 ⟨_, rfl,
    except_bind_eq_ok.2 ⟨_, rfl, except_bind_eq_ok.2 ⟨_, table, rfl⟩⟩⟩⟩⟩⟩

/-- An annotation of 65536 elements is written, and what is written of it is read as one without. -/
theorem toBytes_repeating :
    (∃ bs, (bearing ⟨0, .annotations true [AnnotationData.repeating 65536]⟩).toBytes = .ok bs) ∧
    ∀ limit, ∃ s, AnnotationData.read limit ⟨0, (AnnotationData.repeating 65536).write⟩ =
      .ok ⟨0, []⟩ s := by
  constructor
  · have small : (AnnotationData.repeating 65536).write.length + 2 < 4294967296 := by
      rw [AnnotationData.length_write_repeating]
      decide
    obtain ⟨part, written⟩ := Attribute.write_annotation 0 true small
    exact toBytes_bearing written
  · intro limit
    have none := AnnotationData.reached_repeating (n := 65536) (by decide)
    have within : ∀ e ∈ reached (AnnotationData.repeating 65536).elements,
        e.2.Within limit := by simp [none]
    obtain ⟨pos, read⟩ := AnnotationData.read_write_reached within 0 []
    rw [none, List.append_nil] at read
    exact ⟨_, read⟩

end ClassFile

end Weft
