import Weft.Proofs.Weave.Handing

/-!
# The methods of a woven class

Each part of a plan leaves a method with its code, which the steps of weaving behind it leave alone:
a wrapper is moved with its name where its method is intercepted again, and is no method that
initializes. All methods of a woven class have such code or that of a method that the class had.
-/

namespace Weft

variable {options : DecodeOptions} {p q : Pool} {owner : ClassName}

theorem Member.code?_of_find? {m : Member} {a : Attribute}
    (coded : m.attributes.find? (·.body.code?.isSome) = some a) : m.code? = a.body.code? := by
  unfold Member.code?
  generalize m.attributes = attributes at coded
  induction attributes with
  | nil => cases coded
  | cons b rest ih =>
    rw [List.find?_cons] at coded
    rw [List.findSome?_cons]
    cases code : b.body.code? with
    | some d =>
      rw [code] at coded
      cases coded
      exact code.symm
    | none =>
      rw [code] at coded
      exact ih coded

namespace Weave

variable {c c' : ClassFile} {plan : Plan}

/-! ## Wrappers -/

/-- The code of the method is the wrapper of the interception. -/
def PlannedIntercept.IsWrapper (i : PlannedIntercept) (owner : ClassName) (p : Pool) (m : Member) :
    Prop :=
  ∃ wrapper, m.code? = some wrapper ∧
    wrapper.IsBuilt (entrySlots i.site.descriptor i.site.isStatic) (i.wrapperCode owner) p

/-- The name of the method is none that the virtual machine gives a meaning to. -/
def Ordinary (p : Pool) (m : Member) : Prop :=
  ∀ r, p.Extends r → r.size < 65536 →
    r.utf8 m.name ≠ .ok "<init>" ∧ r.utf8 m.name ≠ .ok "<clinit>"

theorem Ordinary.mono {m : Member} (h : Ordinary p m) (grown : p.Extends q) : Ordinary q m :=
  fun r later => h r (grown.trans later)

theorem ordinary_of_holds {m : Member} {name : String} (named : p.Holds m.name (.utf8 name))
    (other : name ≠ "<init>" ∧ name ≠ "<clinit>") : Ordinary p m := by
  intro r grown small
  rw [(named.mono grown).utf8 small.le]
  exact ⟨fun same => other.1 (Except.ok.inj same), fun same => other.2 (Except.ok.inj same)⟩

namespace PlannedIntercept

variable {i : PlannedIntercept} {is : List PlannedIntercept}

theorem IsWrapper.mono {m : Member} (h : i.IsWrapper owner p m) (grown : p.Extends q) :
    i.IsWrapper owner q m := by
  obtain ⟨wrapper, coded, built⟩ := h
  exact ⟨wrapper, coded, built.mono grown⟩

/-- What intercepting a method does to the methods of a class. -/
structure Intercepts (i : PlannedIntercept) (owner : ClassName) (c c' : ClassFile) : Prop where
  pool : c.pool.GrowsTo c'.pool
  wrapper : ∃ m, c'.methods[i.site.index.toNat]? = some m ∧ i.IsWrapper owner c'.pool m
  others : ∀ n m, c.methods[n]? = some m →
    ∃ m', c'.methods[n]? = some m' ∧ m'.name = m.name ∧ (n ≠ i.site.index.toNat → m' = m)
  moved : ∀ m, c.methods[i.site.index.toNat]? = some m →
    ∃ m' ∈ c'.methods, m'.code? = m.code? ∧ c'.pool.Holds m'.name (.utf8 i.keptAs)
  each : ∀ m' ∈ c'.methods, i.IsWrapper owner c'.pool m' ∨ ∃ m ∈ c.methods, m'.code? = m.code?

theorem intercepts_of_weave (h : i.weave owner c = .ok () c') (sound : c.pool.Sound) :
    i.Intercepts owner c c' := by
  obtain ⟨keeps, -, -, m, code, wrapper, moved, found, coded, methods, is_moved⟩ :=
    weave_eq_ok {} h
  obtain ⟨x, w, at_index, wraps⟩ := weave_wraps h sound
  have inside := (List.getElem?_eq_some_iff.1 found).1
  have kept : moved.code? = m.code? := by
    rw [Member.code?, (is_moved sound).attributes, List.findSome?_singleton,
      Member.code?_of_find? coded]
  refine ⟨keeps.pool, ⟨x, at_index, w, wraps⟩, fun n y at_n => ?_, fun y at_y => ?_, fun y mem => ?_⟩
  · have bound := (List.getElem?_eq_some_iff.1 at_n).1
    rw [methods, List.getElem?_append_left (by simpa using bound)]
    by_cases same : i.site.index.toNat = n
    · subst same
      cases found.symm.trans at_n
      exact ⟨_, List.getElem?_set_self inside, rfl, fun other => absurd rfl other⟩
    · exact ⟨y, by rw [List.getElem?_set_ne same, at_n], rfl, fun _ => rfl⟩
  · cases found.symm.trans at_y
    refine ⟨moved, ?_, kept, (is_moved sound).name⟩
    rw [methods]
    exact List.mem_append_right _ (List.mem_singleton_self moved)
  · rw [methods] at mem
    rcases List.mem_append.1 mem with mem | mem
    · rcases List.mem_or_eq_of_mem_set mem with old | rfl
      · exact .inr ⟨y, old, rfl⟩
      · rw [methods, List.getElem?_append_left (by simpa using inside),
          List.getElem?_set_self inside] at at_index
        cases at_index
        exact .inl ⟨w, wraps⟩
    · rw [List.mem_singleton.1 mem]
      exact .inr ⟨m, List.mem_of_getElem? found, kept⟩

theorem forM_cons_eq_ok (h : (i :: is).forM (·.weave owner) c = .ok ⟨⟩ c') (sound : c.pool.Sound) :
    ∃ c₁, i.Intercepts owner c c₁ ∧ c₁.pool.Sound ∧ is.forM (·.weave owner) c₁ = .ok ⟨⟩ c' := by
  obtain ⟨⟨⟩, c₁, first, rest⟩ := step_bind_eq_ok.1 h
  have wraps := intercepts_of_weave first sound
  exact ⟨c₁, wraps, wraps.pool.sound sound, rest⟩

/-- Methods that are not intercepted stay. -/
theorem others_stay (h : is.forM (·.weave owner) c = .ok ⟨⟩ c') (sound : c.pool.Sound) {n : Nat}
    {m : Member} (at_n : c.methods[n]? = some m) (other : ∀ i ∈ is, i.site.index.toNat ≠ n) :
    c'.methods[n]? = some m := by
  induction is generalizing c with
  | nil =>
    cases h
    exact at_n
  | cons i is ih =>
    obtain ⟨c₁, wraps, sound₁, h⟩ := forM_cons_eq_ok h sound
    obtain ⟨m', at_n', -, same⟩ := wraps.others n m at_n
    obtain rfl := same (other i List.mem_cons_self).symm
    exact ih h sound₁ at_n' fun j mem => other j (List.mem_cons_of_mem i mem)

/-- Where ordinary methods are intercepted, no constructor is. -/
theorem spares_constructor (ordinary : ∀ i ∈ is, ∃ m, c.methods[i.site.index.toNat]? = some m ∧
    Ordinary c.pool m) (small : c.pool.size < 65536) {n : Nat} {m : Member}
    (at_n : c.methods[n]? = some m) (special : c.pool.utf8 m.name = .ok "<init>") :
    ∀ i ∈ is, i.site.index.toNat ≠ n := by
  rintro i planned rfl
  obtain ⟨m₀, found, plain⟩ := ordinary i planned
  cases found.symm.trans at_n
  exact (plain _ (.refl _) small).1 special

/-- A wrapper stays a wrapper. Where its method is intercepted again, it moves. -/
theorem IsWrapper.stays (h : is.forM (·.weave owner) c = .ok ⟨⟩ c') (sound : c.pool.Sound)
    (kept : ∀ j ∈ is, j.keptAs ≠ "<init>" ∧ j.keptAs ≠ "<clinit>") {n : Nat} {m : Member}
    (at_n : c.methods[n]? = some m) (wrapper : i.IsWrapper owner c.pool m)
    (ordinary : Ordinary c.pool m) :
    ∃ n' m', c'.methods[n']? = some m' ∧ i.IsWrapper owner c'.pool m' ∧ Ordinary c'.pool m' ∧
      ((∀ j ∈ is, j.site.index.toNat ≠ n) → n' = n) := by
  induction is generalizing c n m with
  | nil =>
    cases h
    exact ⟨n, m, at_n, wrapper, ordinary, fun _ => rfl⟩
  | cons j is ih =>
    obtain ⟨c₁, wraps, sound₁, h⟩ := forM_cons_eq_ok h sound
    have kept' := fun j' mem => kept j' (List.mem_cons_of_mem j mem)
    have wrapper₁ := wrapper.mono wraps.pool.keeps
    by_cases again : j.site.index.toNat = n
    · subst again
      obtain ⟨m₁, mem, code, named⟩ := wraps.moved m at_n
      obtain ⟨n₁, at_n₁⟩ := List.getElem?_of_mem mem
      have moved : i.IsWrapper owner c₁.pool m₁ := by
        obtain ⟨w, coded, built⟩ := wrapper₁
        exact ⟨w, code.trans coded, built⟩
      obtain ⟨n', m', at_n', wrapper', ordinary', -⟩ := ih h sound₁ kept' at_n₁ moved
        (ordinary_of_holds named (kept j List.mem_cons_self))
      exact ⟨n', m', at_n', wrapper', ordinary', fun other => absurd rfl (other j List.mem_cons_self)⟩
    · obtain ⟨m₁, at_n₁, -, same⟩ := wraps.others n m at_n
      obtain rfl := same (Ne.symm again)
      obtain ⟨n', m', at_n', wrapper', ordinary', stays⟩ := ih h sound₁ kept' at_n₁ wrapper₁
        (ordinary.mono wraps.pool.keeps)
      exact ⟨n', m', at_n', wrapper', ordinary',
        fun other => stays fun j' mem => other j' (List.mem_cons_of_mem j mem)⟩

/-- Each interception leaves its wrapper, in the place of the method unless that is intercepted
again. -/
theorem intercepts_wrap (h : is.forM (·.weave owner) c = .ok ⟨⟩ c') (sound : c.pool.Sound)
    (kept : ∀ i ∈ is, i.keptAs ≠ "<init>" ∧ i.keptAs ≠ "<clinit>")
    (ordinary : ∀ i ∈ is, ∃ m, c.methods[i.site.index.toNat]? = some m ∧ Ordinary c.pool m) :
    ∀ i ∈ is, ∃ n m, c'.methods[n]? = some m ∧ i.IsWrapper owner c'.pool m ∧
      Ordinary c'.pool m ∧ ((is.map (·.site.index)).Nodup → n = i.site.index.toNat) := by
  induction is generalizing c with
  | nil => exact fun i mem => nomatch mem
  | cons i is ih =>
    obtain ⟨c₁, wraps, sound₁, h⟩ := forM_cons_eq_ok h sound
    have kept' := fun j mem => kept j (List.mem_cons_of_mem i mem)
    have named {n : Nat} {m : Member} (at_n : c.methods[n]? = some m) (plain : Ordinary c.pool m) :
        ∃ m', c₁.methods[n]? = some m' ∧ Ordinary c₁.pool m' := by
      obtain ⟨m', at_n', same, -⟩ := wraps.others n m at_n
      refine ⟨m', at_n', fun r grown => ?_⟩
      rw [same]
      exact plain r (wraps.pool.keeps.trans grown)
    refine List.forall_mem_cons.2 ⟨?_, fun j mem => ?_⟩
    · obtain ⟨m, at_index, wrapper⟩ := wraps.wrapper
      obtain ⟨m₀, found, plain⟩ := ordinary i List.mem_cons_self
      obtain ⟨m', found', plain'⟩ := named found plain
      cases at_index.symm.trans found'
      obtain ⟨n', m', at_n', wrapper', ordinary', stays⟩ :=
        wrapper.stays h sound₁ kept' at_index plain'
      refine ⟨n', m', at_n', wrapper', ordinary', fun distinct => stays fun j mem same => ?_⟩
      rw [List.map_cons, List.nodup_cons] at distinct
      exact distinct.1 (UInt16.toNat_inj.1 same ▸ List.mem_map_of_mem mem)
    · obtain ⟨n', m', at_n', wrapper', ordinary', stays⟩ := ih h sound₁ kept' (fun k mem => by
        obtain ⟨m₀, found, plain⟩ := ordinary k (List.mem_cons_of_mem i mem)
        exact named found plain) j mem
      refine ⟨n', m', at_n', wrapper', ordinary', fun distinct => stays ?_⟩
      rw [List.map_cons, List.nodup_cons] at distinct
      exact distinct.2

/-- Behind interceptions a method is a wrapper or has code that one had before. -/
theorem wrapper_or_old (h : is.forM (·.weave owner) c = .ok ⟨⟩ c') (sound : c.pool.Sound) :
    ∀ m' ∈ c'.methods, (∃ i ∈ is, i.IsWrapper owner c'.pool m') ∨
      ∃ m ∈ c.methods, m'.code? = m.code? := by
  induction is generalizing c with
  | nil =>
    cases h
    exact fun m mem => .inr ⟨m, mem, rfl⟩
  | cons i is ih =>
    obtain ⟨c₁, wraps, sound₁, rest⟩ := forM_cons_eq_ok h sound
    intro m' mem
    rcases ih rest sound₁ m' mem with ⟨j, planned, wrapper⟩ | ⟨m₁, mem₁, code⟩
    · exact .inl ⟨j, List.mem_cons_of_mem i planned, wrapper⟩
    · rcases wraps.each m₁ mem₁ with wrapper | ⟨m, mem, code'⟩
      · obtain ⟨w, coded, built⟩ := wrapper.mono (keeps_intercepts {} rest).1.pool.keeps
        exact .inl ⟨i, List.mem_cons_self, w, code.trans coded, built⟩
      · exact .inr ⟨m, mem, code.trans code'⟩

end PlannedIntercept

/-! ## First values -/

/-- A part of the method asks for the first values of the fields, of which there are some. -/
structure Initializes (owner : ClassName) (fields : List PlannedField) (p : Pool) (m : Member) :
    Prop where
  nonempty : fields ≠ []
  includes : ∀ r, p.Extends r → r.size < 65536 →
    m.Includes r (fields.filterMap (·.handing? owner))

theorem Initializes.mono {fields : List PlannedField} {m : Member}
    (h : Initializes owner fields p m) (grown : p.Extends q) : Initializes owner fields q m :=
  ⟨h.nonempty, fun r later => h.includes r (grown.trans later)⟩

/-- The method is a constructor that calls one of the superclass before any of its own class. -/
def CallsSuper (p : Pool) (owner : ClassName) (m : Member) : Prop :=
  p.utf8 m.name = .ok "<init>" ∧ ∃ code body position, m.code? = some code ∧
    Body.ofCode code p = .ok body ∧
      constructorStart p owner body = .ok (some (.callsSuper position))

theorem CallsSuper.mono {m : Member} (h : CallsSuper p owner m) (grown : p.Extends q) :
    CallsSuper q owner m := by
  obtain ⟨named, code, body, position, coded, read, start⟩ := h
  exact ⟨Pool.utf8_mono grown named, code, body, position, coded, ofCode_mono read grown,
    startFrom_mono start grown⟩

/-- The code of a method that is read is short, and can be exchanged. -/
theorem code_of_readable {m : Member} {code : CodeAttribute} (readable : m.Readable options p)
    (coded : m.code? = some code) :
    code.code.length ≤ 65535 ∧ ∀ code', (m.setCode code').code? = some code' := by
  obtain ⟨a, mem, code_a⟩ := List.exists_of_findSome?_eq_some coded
  obtain ⟨found, has_code⟩ : ∃ found,
      m.attributes.find? (·.body.code?.isSome) = some found := by
    rw [← Option.isSome_iff_exists, List.find?_isSome]
    exact ⟨a, mem, by rw [code_a]; rfl⟩
  exact ⟨(readable.attributes a mem).short code code_a,
    fun code' => Member.code?_setCode code' has_code⟩

/-- Code that is inserted into a method is included. -/
theorem initializes_of_insert {fields : List PlannedField} {m : Member} {code code' : CodeAttribute}
    {body : Body} {position : Nat} (nonempty : fields ≠ []) (coded : m.code? = some code)
    (inserted : insertAssignment owner fields code body position p = .ok code' q)
    (sound : p.Sound) (readable : m.Readable options p) (read : Body.ofCode code p = .ok body) :
    Initializes owner fields q (m.setCode code') := by
  refine ⟨nonempty, fun r grown small => ?_⟩
  obtain ⟨short, changed⟩ := code_of_readable readable coded
  obtain ⟨b, before, part, after, read', split, traced⟩ :=
    insertAssignment_included inserted sound read short grown small
  exact ⟨b, before, part, after, Member.body?_eq_some (changed code') read', split, traced⟩

/-- What assigning instance fields leaves of a method. -/
structure Constructed (owner : ClassName) (fields : List PlannedField) (p q : Pool) (m m' : Member) :
    Prop where
  name : m'.name = m.name
  change : m' = m ∨ Initializes owner fields q m' ∧
    ∃ r, p.Extends r ∧ r.Extends q ∧ r.utf8 m.name = .ok "<init>"
  initializes : fields ≠ [] → CallsSuper p owner m → Initializes owner fields q m'

theorem constructed_of_initializeIn {fields : List PlannedField} {m m' : Member}
    (h : initializeIn owner fields m p = .ok m' q) (nonempty : fields ≠ []) (grown : p.Extends q)
    (sound : p.Sound) (readable : m.Readable options p) : Constructed owner fields p q m m' := by
  rcases initializeIn_cases h with
    ⟨rfl, rfl, other⟩ | ⟨code, body, position, c, call, inserted, rfl⟩
  · refine ⟨rfl, .inl rfl, fun _ ⟨special, code, body, position, coded, read, start⟩ => ?_⟩
    exact absurd ⟨special, coded, read, start⟩ (other code body position)
  · have initializes := initializes_of_insert nonempty call.coded inserted sound readable call.read
    exact ⟨rfl, .inr ⟨initializes, p, .refl p, grown, call.special⟩, fun _ _ => initializes⟩

theorem Constructed.between {fields : List PlannedField} {p' q' : Pool} {m m' : Member}
    (h : Constructed owner fields p' q' m m') (before : p.Extends p') (after : q'.Extends q) :
    Constructed owner fields p q m m' := by
  refine ⟨h.name, h.change.imp_right ?_, fun some calls =>
    (h.initializes some (calls.mono before)).mono after⟩
  rintro ⟨initializes, r, start, stop, named⟩
  exact ⟨initializes.mono after, r, before.trans start, stop.trans after, named⟩

theorem constructed_of_initializeInstances {fields : List PlannedField}
    (h : initializeInstances owner fields c = .ok () c') (readable : c.Readable options) :
    List.Forall₂ (Constructed owner (pendingFields false fields) c.pool c'.pool)
      c.methods c'.methods := by
  rcases initializeIn_of_initializeInstances h with
    ⟨none, rfl⟩ | ⟨nonempty, methods, q, rfl, -, each⟩
  · exact List.forall₂_same.2 fun _ _ => ⟨rfl, .inl rfl, fun some => absurd none some⟩
  · refine ((List.forall₂_and_left _ _).2 ⟨readable.methods, each⟩).imp fun m m' => ?_
    rintro ⟨old, p, p', before, made, after⟩
    have step := (initializeIn_eq_ok options made needsCode_of_pending nonempty).1
    exact (constructed_of_initializeIn made nonempty step.keeps (before.sound readable.pool)
      (old.mono before.keeps)).between before.keeps after.keeps

/-- What assigning static fields does to the methods of a class. -/
theorem initializes_of_initializeStatics {fields : List PlannedField}
    (h : initializeStatics owner fields c = .ok () c') (readable : c.Readable options) :
    ∃ base added, c'.methods = base ++ added ∧
      List.Forall₂ (fun m m' => m' = m ∨ c.pool.utf8 m.name = .ok "<clinit>" ∧
        Initializes owner (pendingFields true fields) c'.pool m') c.methods base ∧
      (∀ m ∈ added, Initializes owner (pendingFields true fields) c'.pool m) ∧
      (pendingFields true fields ≠ [] → ∃ m ∈ c'.methods, IsAddedInitializer c'.pool m ∧
        Initializes owner (pendingFields true fields) c'.pool m) := by
  rcases initializeStatics_cases h with ⟨none, rfl⟩ | ⟨nonempty, ⟨-, pushed⟩ |
    ⟨m, code, body, code', q, found, coded, read, inserted, rfl⟩⟩
  · exact ⟨c'.methods, [], (List.append_nil _).symm, List.forall₂_same.2 fun _ _ => .inl rfl,
      (fun m mem => nomatch mem), fun some => absurd none some⟩
  · obtain ⟨-, m, methods, emitted⟩ := pushMethod_isEmitted
      (writes_initializer owner needsCode_of_pending) pushed readable.pool
    obtain ⟨code, coded, built⟩ := emitted.built
    have initializes : Initializes owner (pendingFields true fields) c'.pool m := by
      refine ⟨nonempty, fun r grown small => ?_⟩
      obtain ⟨b, part, after, read, split, traced⟩ := (built.mono grown).included
        (hands_assignAll owner _) (Writes.returnValue .void).straight small
      exact ⟨b, [], part, after, Member.body?_eq_some coded read, split, traced⟩
    refine ⟨c.methods, [m], methods, List.forall₂_same.2 fun _ _ => .inl rfl, fun x mem => ?_,
      fun _ => ⟨m, ?_, ⟨emitted.name, emitted.descriptor⟩, initializes⟩⟩
    · exact List.mem_singleton.1 mem ▸ initializes
    · rw [methods]
      exact List.mem_append_right _ (List.mem_singleton_self m)
  · have special := List.find?_some found
    obtain ⟨named, typed⟩ := Member.isNamed_iff.1 special
    have initializes := initializes_of_insert nonempty coded inserted readable.pool
      (readable.methods m (List.mem_of_find?_eq_some found)) read
    obtain ⟨updated, mem⟩ := updateFirst_of_find? (f := (·.setCode code')) found
    have grown := (insertAssignment_eq_ok options inserted needsCode_of_pending nonempty).1
    refine ⟨_, [], (List.append_nil _).symm, updated.imp fun x x' change => ?_,
      (fun x mem => nomatch mem), fun _ => ⟨_, mem, ⟨?_, ?_⟩, initializes⟩⟩
    · refine change.imp_right ?_
      rintro ⟨rfl, rfl⟩
      exact ⟨named, initializes⟩
    · exact (Pool.holds_of_utf8 named).mono grown.keeps
    · exact (Pool.holds_of_utf8 typed).mono grown.keeps

/-- What assigning all fields leaves of a method. -/
structure Initialized (owner : ClassName) (fields : List PlannedField) (p q : Pool) (m m' : Member) :
    Prop where
  ordinary : Ordinary p m → m' = m
  initializes : pendingFields false fields ≠ [] → CallsSuper p owner m →
    Initializes owner (pendingFields false fields) q m'
  change : m' = m ∨ ∃ isStatic, Initializes owner (pendingFields isStatic fields) q m'

/-- No method is both a constructor and the class initializer. -/
theorem Constructed.initialized {fields : List PlannedField} {r : Pool} {m m₁ m' : Member}
    (h : Constructed owner (pendingFields false fields) p q m m₁)
    (h' : m' = m₁ ∨ q.utf8 m₁.name = .ok "<clinit>" ∧
      Initializes owner (pendingFields true fields) r m')
    (grown : p.Extends q) (grown' : q.Extends r) (small : r.size < 65536) :
    Initialized owner fields p r m m' where
  ordinary plain := by
    have few : q.size < 65536 := Nat.lt_of_le_of_lt grown'.size_le small
    obtain rfl : m₁ = m := h.change.resolve_right fun ⟨_, s, after, before, named⟩ =>
      (plain s after (Nat.lt_of_le_of_lt before.size_le few)).1 named
    exact h'.resolve_right fun ⟨named, _⟩ => (plain q grown few).2 named
  initializes nonempty calls := by
    have same : m' = m₁ := h'.resolve_right fun ⟨named, _⟩ => by
      rw [h.name, Pool.utf8_mono grown calls.1] at named
      simp at named
    exact same ▸ (h.initializes nonempty calls).mono grown'
  change := by
    rcases h' with rfl | ⟨-, initializes⟩
    · exact h.change.imp_right fun ⟨initializes, _⟩ => ⟨false, initializes.mono grown'⟩
    · exact .inr ⟨true, initializes⟩

/-- What assigning all fields does to the methods of a class. -/
theorem initialized_of_steps {fields : List PlannedField} {c₁ : ClassFile}
    (h : initializeInstances owner fields c = .ok () c₁)
    (h' : initializeStatics owner fields c₁ = .ok () c') (readable : c.Readable options)
    (small : c'.pool.size < 65536) :
    ∃ base added, c'.methods = base ++ added ∧
      List.Forall₂ (Initialized owner fields c.pool c'.pool) c.methods base ∧
      (∀ m ∈ added, Initializes owner (pendingFields true fields) c'.pool m) ∧
      (pendingFields true fields ≠ [] → ∃ m ∈ c'.methods, IsAddedInitializer c'.pool m ∧
        Initializes owner (pendingFields true fields) c'.pool m) := by
  have keeps := (initializeInstances_eq_ok options h).1
  have keeps' := (initializeStatics_eq_ok options h').1
  obtain ⟨base, added, methods, statics, others, initializes⟩ :=
    initializes_of_initializeStatics h' (keeps.readable readable)
  exact ⟨base, added, methods, forall₂_trans (constructed_of_initializeInstances h readable) statics
    fun _ _ _ first second => first.initialized second keeps.pool.keeps keeps'.pool.keeps small,
    others, initializes⟩

/-! ## Added methods -/

namespace PlannedMethod

variable {helpers : List Helper}

theorem isEmitted_of_member {m : PlannedMethod} {added : Member}
    (h : m.member owner helpers p = .ok added q) (sound : p.Sound) :
    added.IsEmitted m.name m.descriptor m.isStatic (m.code owner helpers) q := by
  obtain ⟨built, p₁, listed, first, rfl, later, -⟩ := steps_of_member {} h
  have emitted := builtMethod_isEmitted m.writes_code first sound
  obtain ⟨name, descriptor, code, coded, written⟩ := emitted.mono later.keeps
  refine ⟨name, descriptor, code, ?_, written⟩
  rw [Member.code?] at coded ⊢
  rw [List.findSome?_append, coded, Option.some_or]

theorem isEmitted_of_pushAll {ms : List PlannedMethod}
    (h : ms.forM (fun m => pushMethod (m.member owner helpers)) c = .ok ⟨⟩ c')
    (sound : c.pool.Sound) :
    ∃ added, c'.methods = c.methods ++ added ∧ List.Forall₂ (fun m x =>
      x.IsEmitted m.name m.descriptor m.isStatic (m.code owner helpers) c'.pool) ms added := by
  induction ms generalizing c with
  | nil =>
    cases h
    exact ⟨[], (List.append_nil _).symm, .nil⟩
  | cons m ms ih =>
    obtain ⟨⟨⟩, c₁, first, rest⟩ := step_bind_eq_ok.1 h
    obtain ⟨x, q, made, rfl⟩ := pushMethod_steps first
    have sound₁ := (member_eq_ok {} made).grown.sound sound
    obtain ⟨added, methods, emitted⟩ := ih rest sound₁
    have later := (pushAll_eq_ok {} rest sound₁).1.pool
    refine ⟨x :: added, by rw [methods, List.append_assoc]; rfl, .cons ?_ emitted⟩
    exact (isEmitted_of_member made sound).mono later.keeps

end PlannedMethod

/-! ## The methods of a woven class -/

/-- What the methods of a woven class are: for each part of the plan there is one with its code, and
each has such code or that of a method that the class had. -/
structure Populated (plan : Plan) (owner : ClassName) (c : ClassFile) (p : Pool)
    (methods : List Member) : Prop where
  intercepts : ∀ i ∈ plan.intercepts, ∃ n m, methods[n]? = some m ∧ i.IsWrapper owner p m ∧
    ((plan.intercepts.map (·.site.index)).Nodup → n = i.site.index.toNat)
  added : ∀ a ∈ plan.methods, ∃ m ∈ methods,
    m.IsEmitted a.name a.descriptor a.isStatic (a.code owner plan.helpers) p
  statics : pendingFields true plan.fields ≠ [] → ∃ m ∈ methods, IsAddedInitializer p m ∧
    Initializes owner (pendingFields true plan.fields) p m
  instances : pendingFields false plan.fields ≠ [] → ∀ (n : Nat) (m : Member),
    c.methods[n]? = some m → CallsSuper c.pool owner m →
      ∃ m', methods[n]? = some m' ∧ Initializes owner (pendingFields false plan.fields) p m'
  each : ∀ m' ∈ methods, (∃ m ∈ c.methods, m'.code? = m.code?) ∨
    (∃ i ∈ plan.intercepts, i.IsWrapper owner p m') ∨
    (∃ a ∈ plan.methods,
      m'.IsEmitted a.name a.descriptor a.isStatic (a.code owner plan.helpers) p) ∨
    ∃ isStatic, Initializes owner (pendingFields isStatic plan.fields) p m'

theorem Populated.mono {methods : List Member} (h : Populated plan owner c p methods)
    (grown : p.Extends q) : Populated plan owner c q methods where
  intercepts i planned := by
    obtain ⟨n, m, at_n, wrapper, unmoved⟩ := h.intercepts i planned
    exact ⟨n, m, at_n, wrapper.mono grown, unmoved⟩
  added a planned := by
    obtain ⟨m, mem, emitted⟩ := h.added a planned
    exact ⟨m, mem, emitted.mono grown⟩
  statics nonempty := by
    obtain ⟨m, mem, special, initializes⟩ := h.statics nonempty
    exact ⟨m, mem, special.mono grown, initializes.mono grown⟩
  instances nonempty n m at_n calls := by
    obtain ⟨m', at_n', initializes⟩ := h.instances nonempty n m at_n calls
    exact ⟨m', at_n', initializes.mono grown⟩
  each m mem := by
    rcases h.each m mem with kept | ⟨i, planned, wrapper⟩ | ⟨a, planned, emitted⟩ |
      ⟨isStatic, initializes⟩
    · exact .inl kept
    · exact .inr (.inl ⟨i, planned, wrapper.mono grown⟩)
    · exact .inr (.inr (.inl ⟨a, planned, emitted.mono grown⟩))
    · exact .inr (.inr (.inr ⟨isStatic, initializes.mono grown⟩))

/-- The steps of weaving, and what each leaves to the next. -/
theorem Plan.populated_of_weave (h : plan.weave owner c = .ok () c') (readable : c.Readable options)
    (kept : ∀ i ∈ plan.intercepts, i.keptAs ≠ "<init>" ∧ i.keptAs ≠ "<clinit>")
    (ordinary : ∀ i ∈ plan.intercepts, ∃ m, c.methods[i.site.index.toNat]? = some m ∧
      Ordinary c.pool m) (small : c'.pool.size < 65536) :
    Populated plan owner c c'.pool c'.methods := by
  obtain ⟨c₁, c₂, c₃, c₄, c₅, c₆, stages⟩ := stages_of_weave options h readable.pool
  have after := stages.keepsFrom₄.pool.keeps
  have few : c₄.pool.size < 65536 := Nat.lt_of_le_of_lt after.size_le small
  obtain ⟨base, initializers, methods₄, changes, others, initializes⟩ :=
    initialized_of_steps stages.constructed stages.initialized
      ((stages.keeps₁.trans stages.keeps₂).readable readable) few
  obtain ⟨added, methods₅, emitted⟩ := PlannedMethod.isEmitted_of_pushAll stages.added
    (stages.keepsTo₄.readable readable).pool
  have whole : c'.methods = base ++ (initializers ++ added) := by
    rw [stages.marked.methods, methods₅, methods₄, List.append_assoc]
  have place {n : Nat} {m : Member} (at_n : c₁.methods[n]? = some m) : ∃ m',
      c'.methods[n]? = some m' ∧ Initialized owner plan.fields c₂.pool c₄.pool m m' := by
    obtain ⟨m', at_n', change⟩ := forall₂_getElem? changes (stages.methods ▸ at_n)
    rw [whole, List.getElem?_append_left (List.getElem?_eq_some_iff.1 at_n').1]
    exact ⟨m', at_n', change⟩
  have declared := stages.keeps₂.pool.keeps
  have grown := (stages.keeps₃.trans stages.keeps₄).pool.keeps.trans after
  refine ⟨fun i planned => ?_, fun a planned => ?_, fun nonempty => ?_,
    fun nonempty n m at_n calls => ?_, fun m' mem => ?_⟩
  · obtain ⟨n, m, at_n, wrapper, plain, unmoved⟩ := PlannedIntercept.intercepts_wrap
      stages.intercepted readable.pool kept ordinary i planned
    obtain ⟨m', at_n', change⟩ := place at_n
    obtain rfl := change.ordinary (plain.mono declared)
    exact ⟨n, m', at_n', wrapper.mono (declared.trans grown), unmoved⟩
  · obtain ⟨x, mem, emitted⟩ := forall₂_mem_left emitted planned
    refine ⟨x, ?_, emitted.mono stages.marked.keeps.pool.keeps⟩
    rw [whole]
    exact List.mem_append_right _ (List.mem_append_right _ mem)
  · obtain ⟨m, mem, special, initializes⟩ := initializes nonempty
    refine ⟨m, ?_, special.mono after, initializes.mono after⟩
    rw [whole, ← List.append_assoc, ← methods₄]
    exact List.mem_append_left _ mem
  · have other := PlannedIntercept.spares_constructor ordinary
      (Nat.lt_of_le_of_lt stages.keeps.pool.keeps.size_le small) at_n calls.1
    obtain ⟨m', at_n', change⟩ :=
      place (PlannedIntercept.others_stay stages.intercepted readable.pool at_n other)
    exact ⟨m', at_n', (change.initializes nonempty
      (calls.mono (stages.keeps₁.trans stages.keeps₂).pool.keeps)).mono after⟩
  · rw [whole] at mem
    rcases List.mem_append.1 mem with mem | mem
    · obtain ⟨m, old, change⟩ := forall₂_mem_right changes mem
      rcases change.change with rfl | ⟨isStatic, initializes⟩
      · rcases PlannedIntercept.wrapper_or_old stages.intercepted readable.pool m'
          (stages.methods ▸ old) with ⟨i, planned, wrapper⟩ | kept
        · exact .inr (.inl ⟨i, planned, wrapper.mono (declared.trans grown)⟩)
        · exact .inl kept
      · exact .inr (.inr (.inr ⟨isStatic, initializes.mono after⟩))
    rcases List.mem_append.1 mem with mem | mem
    · exact .inr (.inr (.inr ⟨true, (others m' mem).mono after⟩))
    · obtain ⟨a, planned, emitted⟩ := forall₂_mem_right emitted mem
      exact .inr (.inr (.inl ⟨a, planned, emitted.mono stages.marked.keeps.pool.keeps⟩))

end Weave

end Weft
