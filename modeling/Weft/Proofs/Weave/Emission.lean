import Weft.Proofs.ClassFile.Images
import Weft.Proofs.Code.Building
import Weft.Proofs.Code.RoundTrip
import Weft.Weave.Emission

/-!
# What emitting gives

Code that is written for a body is readable, and so are the methods that are emitted with it; the
pool only grows meanwhile.
-/

namespace Weft

variable {options : DecodeOptions} {p q : Pool}

/-! ## Attributes -/

/-- An attribute that is made for its name is readable. -/
theorem Attribute.readable_named {name : String} {body : AttributeBody} {a : Attribute}
    (h : named name body p = (a, q)) (sound : p.Sound) (standard : body.name? = some name)
    (plain : body.code? = none) (within : body.Within options.annotationDepth) :
    a.Readable options q := by
  cases h
  exact readable_plain (Pool.holds_addUtf8 sound name) standard plain within

/-! ## Code -/

/-- Code that can be written, with attributes that are readable. -/
structure CodeAttribute.Readable (options : DecodeOptions) (p : Pool) (c : CodeAttribute) :
    Prop where
  some_code : c.code.length ≠ 0
  short : c.code.length ≤ 65535
  attributes : ∀ a ∈ c.attributes, a.Readable options p

namespace Body

theorem readable_lineAttributes {b : Body} {l : Layout} {attributes : List Attribute}
    (h : b.lineAttributes l p = .ok attributes q) (sound : p.Sound) :
    ∀ a ∈ attributes, a.Readable options q := by
  rcases steps_of_table h with ⟨-, rfl, -⟩ | ⟨rows, a, -, named, rfl⟩
  · exact List.forall_mem_nil _
  · exact List.forall_mem_singleton.2 (Attribute.readable_named named sound rfl rfl trivial)

theorem readable_localAttributes {b : Body} {l : Layout} {attributes : List Attribute}
    (h : b.localAttributes l p = .ok attributes q) (sound : p.Sound) :
    ∀ a ∈ attributes, a.Readable options q := by
  rcases steps_of_table h with ⟨-, rfl, -⟩ | ⟨rows, a, -, named, rfl⟩
  · exact List.forall_mem_nil _
  · exact List.forall_mem_singleton.2 (Attribute.readable_named named sound rfl rfl trivial)

/-- Code that is written has as many bytes as its layout says, and some if the body has
instructions. -/
theorem Written.length {b : Body} {l : Layout} {c : CodeAttribute} (w : b.Written l c) :
    c.code.length = l.size ∧ l.size ≤ 65535 ∧ (b.instructions ≠ [] → l.size ≠ 0) := by
  have s := Layout.settled_of_ofCode w.layout
  obtain ⟨parts, written, same⟩ := except_map_eq_ok.1 w.code
  have size := s.contiguous.stop_eq (except_mapM_eq_ok.1 written)
  rw [Nat.zero_add] at size
  refine ⟨by rw [← same, size], s.bounded, fun some => ?_⟩
  obtain ⟨i, mem⟩ := List.exists_mem_of_ne_nil _ some
  obtain ⟨item, placed, is_op⟩ := List.mem_filterMap.1 mem
  rw [← s.items] at placed
  obtain ⟨x, hx, rfl⟩ := List.mem_map.1 placed
  have bounds := s.contiguous.bounds hx
  have op : x.item = .op i := by
    revert is_op
    cases x.item <;> simp [Item.instruction?]
  have pos := i.size_pos x.offset x.wide
  rw [Placed.size_op op] at bounds
  omega

variable (options) in
theorem readable_toCode {b : Body} {c : CodeAttribute} (h : b.toCode p = .ok c q)
    (sound : p.Sound) (some_code : b.instructions ≠ []) : c.Readable options q := by
  obtain ⟨-, l, w⟩ := toCode_eq_ok h
  obtain ⟨length, short, pos⟩ := w.length
  refine ⟨length ▸ pos some_code, length ▸ short, ?_⟩
  obtain ⟨l, code, exceptions, lines, p₁, locals, -, -, -, named_lines, named_locals, rfl⟩ :=
    steps_of_toCode h
  obtain ⟨-, -, grown⟩ := lineAttributes_eq_ok named_lines
  obtain ⟨-, -, grown'⟩ := localAttributes_eq_ok named_locals
  intro a mem
  rcases List.mem_append.1 mem with mem | mem
  · exact (readable_lineAttributes named_lines sound a mem).mono grown'.keeps
  · exact readable_localAttributes named_locals (grown.sound sound) a mem

end Body

/-! ## Members -/

theorem updateFirst_mem {α : Type} {keep : α → Bool} {f : α → α} {as : List α} {b : α}
    (mem : b ∈ updateFirst keep f as) : b ∈ as ∨ ∃ a ∈ as, keep a = true ∧ b = f a := by
  induction as with
  | nil => cases mem
  | cons a as ih =>
    unfold updateFirst at mem
    split at mem
    · rename_i kept
      rcases List.mem_cons.1 mem with rfl | mem
      · exact .inr ⟨a, List.mem_cons_self, kept, rfl⟩
      · exact .inl (List.mem_cons_of_mem a mem)
    · rcases List.mem_cons.1 mem with rfl | mem
      · exact .inl List.mem_cons_self
      · rcases ih mem with mem | ⟨c, mem, kept⟩
        · exact .inl (List.mem_cons_of_mem a mem)
        · exact .inr ⟨c, List.mem_cons_of_mem a mem, kept⟩

theorem forall₂_updateFirst {α : Type} {keep : α → Bool} {f : α → α} (as : List α) :
    List.Forall₂ (fun a b => b = a ∨ (keep a = true ∧ b = f a)) as (updateFirst keep f as) := by
  induction as with
  | nil => exact .nil
  | cons a as ih =>
    unfold updateFirst
    split
    · exact .cons (.inr ⟨‹_›, rfl⟩) (List.forall₂_same.2 fun _ _ => .inl rfl)
    · exact .cons (.inl rfl) ih

/-- The element that is updated is the one that is found. -/
theorem updateFirst_of_find? {α : Type} {keep : α → Bool} {f : α → α} {as : List α} {a : α}
    (found : as.find? keep = some a) :
    List.Forall₂ (fun b b' => b' = b ∨ (b = a ∧ b' = f a)) as (updateFirst keep f as) ∧
      f a ∈ updateFirst keep f as := by
  induction as with
  | nil => cases found
  | cons b as ih =>
    unfold updateFirst
    split
    · rename_i kept
      rw [List.find?_cons_of_pos kept] at found
      cases found
      exact ⟨.cons (.inr ⟨rfl, rfl⟩) (List.forall₂_same.2 fun _ _ => .inl rfl), List.mem_cons_self⟩
    · rename_i other
      rw [List.find?_cons_of_neg other] at found
      obtain ⟨updated, mem⟩ := ih found
      exact ⟨.cons (.inl rfl) updated, List.mem_cons_of_mem b mem⟩

namespace Member

/-- A method keeps being readable with other code that can be written. -/
theorem readable_setCode {m : Member} {c : CodeAttribute} (h : m.Readable options p)
    (readable : c.Readable options p) : (m.setCode c).Readable options p where
  name := h.name
  descriptor := h.descriptor
  attributes a mem := by
    rcases updateFirst_mem mem with kept | ⟨a, old, coded, rfl⟩
    · exact h.attributes a kept
    · have named := (h.attributes a old).named
      obtain ⟨name, body⟩ := a
      cases body <;> try cases coded
      exact Attribute.readable_code (named "Code" rfl) readable.some_code readable.short
        readable.attributes

theorem named_eq_ok {access : Access} {name descriptor : String} {m : Member}
    (h : named access name descriptor p = (m, q)) : p.GrowsTo q ∧ m.access = access ∧
      m.attributes = [] ∧ (p.Sound → q.Holds m.name (.utf8 name) ∧
        q.Holds m.descriptor (.utf8 descriptor)) := by
  cases h
  have grown := Pool.grows_addUtf8 name p
  have grown' := Pool.grows_addUtf8 descriptor (Pool.addUtf8 name p).2
  exact ⟨grown.trans grown', rfl, rfl, fun sound =>
    ⟨(Pool.holds_addUtf8 sound name).mono grown'.keeps,
      Pool.holds_addUtf8 (grown.sound sound) descriptor⟩⟩

end Member

/-! ## Edits -/

namespace Weave

variable {c c' : ClassFile}

theorem editPool_eq_ok {α : Type} {edit : Edit Pool α} {a : α} (h : editPool edit c = .ok a c') :
    ∃ q, edit c.pool = .ok a q ∧ c' = { c with pool := q } := edit_zoom_eq_ok.1 h

/-- What every edit of weaving keeps of a class. -/
structure Keeps (options : DecodeOptions) (c c' : ClassFile) : Prop where
  pool : c.pool.GrowsTo c'.pool
  minorVersion : c'.minorVersion = c.minorVersion
  majorVersion : c'.majorVersion = c.majorVersion
  access : c'.access = c.access
  thisClass : c'.thisClass = c.thisClass
  superClass : c'.superClass = c.superClass
  interfaces : c'.interfaces = c.interfaces
  readable : c.Readable options → c'.Readable options

namespace Keeps

theorem refl (c : ClassFile) : Keeps options c c := ⟨.refl _, rfl, rfl, rfl, rfl, rfl, rfl, id⟩

theorem trans {c'' : ClassFile} (h : Keeps options c c') (h' : Keeps options c' c'') :
    Keeps options c c'' where
  pool := h.pool.trans h'.pool
  minorVersion := h'.minorVersion.trans h.minorVersion
  majorVersion := h'.majorVersion.trans h.majorVersion
  access := h'.access.trans h.access
  thisClass := h'.thisClass.trans h.thisClass
  superClass := h'.superClass.trans h.superClass
  interfaces := h'.interfaces.trans h.interfaces
  readable := h'.readable ∘ h.readable

/-- An edit of members and attributes on a growing pool that leaves readable ones. -/
theorem of_members {fields methods : List Member} {attributes : List Attribute}
    (pool : c.pool.GrowsTo q)
    (readable_fields : c.Readable options → ∀ m ∈ fields, m.Readable options q)
    (readable_methods : c.Readable options → ∀ m ∈ methods, m.Readable options q)
    (readable_attributes : c.Readable options → ∀ a ∈ attributes, a.Readable options q) :
    Keeps options c { c with pool := q, fields, methods, attributes } where
  pool := pool
  minorVersion := rfl
  majorVersion := rfl
  access := rfl
  thisClass := rfl
  superClass := rfl
  interfaces := rfl
  readable h :=
    { pool := pool.sound h.pool
      version := h.version
      named := ClassFile.checkNames_mono h.named pool.keeps rfl rfl rfl
      fields := readable_fields h
      methods := readable_methods h
      attributes := readable_attributes h }

/-- An edit of the methods on a growing pool that leaves readable ones. -/
theorem of_methods {methods : List Member} (pool : c.pool.GrowsTo q)
    (readable : c.Readable options → ∀ m ∈ methods, m.Readable options q) :
    Keeps options c { c with pool := q, methods } :=
  of_members pool (fun h m mem => (h.fields m mem).mono pool.keeps) readable
    fun h a mem => (h.attributes a mem).mono pool.keeps

end Keeps

/-- The step writes straight code, and at least one instruction. -/
def Writes (x : Build Unit) : Prop :=
  ∀ b b', x b = .ok () b' → ∃ ops, b.Wrote b' ops ∧ ops ≠ []

theorem Writes.returnValue (t : JType) : Writes (Build.returnValue t) :=
  fun _ _ h => ⟨_, Build.returnValue_wrote h, by simp⟩

theorem Writes.after {α : Type} {x : Build α} {f : α → Build Unit} (hx : x.Straight)
    (hf : ∀ a, Writes (f a)) : Writes (x >>= f) := by
  intro b b'' h
  obtain ⟨a, b', first, second⟩ := step_bind_eq_ok.1 h
  obtain ⟨ops, wrote⟩ := hx b a b' first
  obtain ⟨ops', wrote', some⟩ := hf a b' b'' second
  exact ⟨ops ++ ops', wrote.trans wrote', by simp [some]⟩

/-- A method that is emitted with straight code. -/
structure Emitted (options : DecodeOptions) (p q : Pool) (name descriptor : String) (m : Member) :
    Prop where
  grown : p.GrowsTo q
  named : p.Sound → q.Holds m.name (.utf8 name)
  typed : p.Sound → q.Holds m.descriptor (.utf8 descriptor)
  readable : p.Sound → m.Readable options q

theorem build_eq_ok {locals : UInt16} {code : Build Unit} (writes : Writes code) {body : Body}
    (h : Body.build locals code p = .ok body q) :
    p.GrowsTo q ∧ body.instructions ≠ [] := by
  obtain ⟨b, built, rfl, rfl⟩ := Body.build_eq_ok h
  obtain ⟨ops, wrote, some⟩ := writes _ _ built
  refine ⟨wrote.pool, ?_⟩
  rw [Body.instructions, wrote.finish]
  cases ops with
  | nil => exact absurd rfl some
  | cons i ops => simp [Item.instruction?]

/-- A method that is built has a name and a descriptor, and its code as the only attribute. -/
theorem steps_of_builtMethod {access : Access} {name : String} {d : MethodDescriptor}
    {code : Build Unit} {m : Member} (h : builtMethod access name d code p = .ok m q) :
    ∃ bare p₁ body p₂ c p₃ a, Member.named access name d.descriptor p = (bare, p₁) ∧
      Body.build (entrySlots d access.isStatic) code p₁ = .ok body p₂ ∧
      body.toCode p₂ = .ok c p₃ ∧ Attribute.named "Code" (.code c) p₃ = (a, q) ∧
      p₃.GrowsTo q ∧ m = { bare with attributes := [a] } := by
  obtain ⟨bare, p₁, named, h⟩ := step_bind_eq_ok.1 h
  obtain ⟨body, p₂, built, h⟩ := step_bind_eq_ok.1 h
  obtain ⟨c, p₃, coded, h⟩ := step_bind_eq_ok.1 h
  obtain ⟨a, p₄, labelled, h⟩ := step_bind_eq_ok.1 h
  obtain ⟨rfl, rfl⟩ := step_pure_eq_ok.1 h
  have labelled := edit_change_eq_ok.1 labelled
  exact ⟨bare, p₁, body, p₂, c, p₃, a, edit_change_eq_ok.1 named, built, coded, labelled,
    (Attribute.grows_named _ _).made labelled, rfl⟩

variable (options) in
theorem builtMethod_eq_ok {access : Access} {name : String} {d : MethodDescriptor}
    {code : Build Unit} (writes : Writes code) {m : Member}
    (h : builtMethod access name d code p = .ok m q) :
    Emitted options p q name d.descriptor m := by
  obtain ⟨bare, p₁, body, p₂, c, p₃, a, named, built, coded, labelled, grown₄, rfl⟩ :=
    steps_of_builtMethod h
  obtain ⟨grown₁, -, none, held⟩ := Member.named_eq_ok named
  obtain ⟨grown₂, some_code⟩ := build_eq_ok writes built
  obtain ⟨grown₃, -⟩ := Body.toCode_eq_ok coded
  have later := (grown₂.trans grown₃).trans grown₄
  refine ⟨grown₁.trans later, fun sound => (held sound).1.mono later.keeps,
    fun sound => (held sound).2.mono later.keeps, fun sound => ?_⟩
  have sound₂ := grown₂.sound (grown₁.sound sound)
  have readable := Body.readable_toCode options coded sound₂ some_code
  refine ⟨⟨_, (held sound).1.mono later.keeps⟩, ⟨_, (held sound).2.mono later.keeps⟩, ?_⟩
  intro b mem
  rw [List.mem_singleton.1 mem]
  cases labelled
  exact Attribute.readable_code (Pool.holds_addUtf8 (grown₃.sound sound₂) "Code")
    readable.some_code readable.short fun a mem => (readable.attributes a mem).mono grown₄.keeps

theorem pushMethod_steps {edit : Edit Pool Member} (h : pushMethod edit c = .ok () c') :
    ∃ m q, edit c.pool = .ok m q ∧ c' = { c with pool := q, methods := c.methods ++ [m] } := by
  obtain ⟨m, c₁, edited, h⟩ := step_bind_eq_ok.1 h
  obtain ⟨q, done, rfl⟩ := editPool_eq_ok edited
  cases h
  exact ⟨m, q, done, rfl⟩

variable (options) in
/-- What pushing a method does to a class. -/
theorem pushMethod_eq_ok {edit : Edit Pool Member} {name descriptor : String}
    (h : pushMethod edit c = .ok () c')
    (emits : ∀ m q, edit c.pool = .ok m q → Emitted options c.pool q name descriptor m) :
    Keeps options c c' ∧ c'.fields = c.fields ∧ c'.attributes = c.attributes ∧
      ∃ m, c'.methods = c.methods ++ [m] ∧ Emitted options c.pool c'.pool name descriptor m := by
  obtain ⟨m, q, done, rfl⟩ := pushMethod_steps h
  have emitted := emits m q done
  refine ⟨.of_methods emitted.grown fun h x mem => ?_, rfl, rfl, m, rfl, emitted⟩
  rcases List.mem_append.1 mem with mem | mem
  · exact (h.methods x mem).mono emitted.grown.keeps
  · exact List.mem_singleton.1 mem ▸ emitted.readable h.pool

end Weave

end Weft
