import Weft.Proofs.Weave.Holders
import Weft.Proofs.Weave.Methods
import Weft.Proofs.Weave.Nests

/-!
# Private members of woven classes

The private methods of a woven class are those that were private before and those that are planned
so: a body that moves leaves its privacy behind. What an accessor names is what was found when it was
planned, as long as the class has nothing twice and no field is planned under the name of a holder.
So no helper names a private member unless helpers join the nest of the class.
-/

namespace Weft

variable {options : DecodeOptions} {p q : Pool} {σ : Type}

/-! ## Access flags -/

namespace Access

variable {a b c d : Access}

/-- Other flags are not lost. -/
theorem has_diff (apart : c.bits &&& ~~~b.bits = c.bits) : (a \ b).has c = a.has c := by
  have same : a.bits &&& ~~~b.bits &&& c.bits = a.bits &&& c.bits := by
    rw [UInt16.and_assoc, UInt16.and_comm _ c.bits, apart]
  show (a.bits &&& ~~~b.bits &&& c.bits == c.bits) = _
  rw [same]
  rfl

/-- Flags that are lost are not among others that are set behind. -/
theorem not_has_diff_union (lost : c.bits &&& ~~~b.bits = 0) (other : d.bits &&& c.bits = 0)
    (some : c.bits ≠ 0) : ((a \ b) ∪ d).has c = false := by
  have none : (a.bits &&& ~~~b.bits ||| d.bits) &&& c.bits = 0 := by
    have split : (a.bits &&& ~~~b.bits ||| d.bits) &&& c.bits =
        a.bits &&& ~~~b.bits &&& c.bits ||| d.bits &&& c.bits :=
      UInt16.toBitVec_inj.1 BitVec.and_or_distrib_right
    rw [split, UInt16.and_assoc, UInt16.and_comm _ c.bits, lost, other, UInt16.and_zero,
      UInt16.or_zero]
  show ((a.bits &&& ~~~b.bits ||| d.bits) &&& c.bits == c.bits) = false
  rw [none]
  exact beq_false_of_ne some.symm

end Access

/-- The member is visible in its nest only. -/
def Member.isPrivate (m : Member) : Bool := m.access.has .accPrivate

/-! ## Sites without duplicates -/

/-- The fields of the class differ in their names or their types, and the methods in their names or
their descriptors. -/
structure ClassSite.Distinct (s : ClassSite) : Prop where
  fields : s.fieldTypes.Nodup
  methods : s.methodTypes.Nodup

section Members

variable {α : Type} {parse : String → Except Error α} {members : List Member}
  {types : List (String × α)}

/-- Of members without duplicates, one with the name and the descriptor of another is that one. -/
theorem member_eq_of_key (print : α → String) (listed : List.Forall₂ (fun m t =>
      p.utf8 m.name = .ok t.1 ∧ ∃ text, p.utf8 m.descriptor = .ok text ∧ parse text = .ok t.2)
      members types) (distinct : types.Nodup) {m own : Member} {n : Nat} {name : String} {a : α}
    (found : members[n]? = some own) (typed : types[n]? = some (name, a))
    (reads : parse (print a) = .ok a) (mem : m ∈ members)
    (key : m.key? p = some (name, print a)) : m = own := by
  obtain ⟨k, at_k⟩ := List.getElem?_of_mem mem
  obtain ⟨⟨name', a'⟩, typed', named, text, described, parsed⟩ := forall₂_getElem? listed at_k
  rw [Member.key?_eq_some (Member.isNamed_iff.2 ⟨named, described⟩)] at key
  cases key
  cases reads.symm.trans parsed
  obtain ⟨inside, -⟩ := List.getElem?_eq_some_iff.1 typed'
  obtain rfl := (List.getElem?_inj inside distinct).1 (typed'.trans typed.symm)
  exact Option.some.inj (at_k.symm.trans found)

/-- A member that has a name is listed under it. -/
theorem mem_types_of_key (listed : List.Forall₂ (fun m t =>
      p.utf8 m.name = .ok t.1 ∧ ∃ text, p.utf8 m.descriptor = .ok text ∧ parse text = .ok t.2)
      members types) {m : Member} (mem : m ∈ members) {key : String × String}
    (named : m.key? p = some key) : ∃ t ∈ types, t.1 = key.1 := by
  obtain ⟨t, typed, known, text, described, -⟩ := forall₂_mem_left listed mem
  rw [Member.key?_eq_some (Member.isNamed_iff.2 ⟨known, described⟩)] at named
  cases named
  exact ⟨t, typed, rfl⟩

end Members

/-- A field of the site stands at its place, under its name and its type. -/
theorem ClassSite.mem_fields {s : ClassSite} {f : FieldSite} (mem : f ∈ s.fields) :
    ∃ n : Nat, s.classFile.fields[n]? = some f.member ∧ s.fieldTypes[n]? = some (f.name, f.type) := by
  obtain ⟨⟨⟨m, name, type⟩, n⟩, listed, rfl⟩ := List.mem_map.1 mem
  have found := List.mem_zipIdx_iff_getElem?.1 listed
  rw [List.getElem?_zip_eq_some] at found
  exact ⟨n, found⟩

namespace Weave

variable {c c' c'' : ClassFile} {owner : ClassName} {plan : Plan}

/-! ## Private methods -/

/-- The private methods of the second class are private ones of the first, or planned so. -/
structure Conceals (c c' : ClassFile) (added : List PlannedMethod) : Prop where
  grown : c.pool.Extends c'.pool
  methods : ∀ m' ∈ c'.methods, m'.isPrivate = true →
    (∃ m ∈ c.methods, m.isPrivate = true ∧ SameKey m m') ∨
      ∃ a ∈ added, a.access.has .accPrivate = true ∧ HasKey c'.pool a.key m'

namespace Conceals

theorem of_same (grown : c.pool.Extends c'.pool) (same : c'.methods = c.methods) :
    Conceals c c' [] :=
  ⟨grown, fun m mem hidden => .inl ⟨m, same ▸ mem, hidden, rfl, rfl⟩⟩

/-- Methods change, and their privacy stays. -/
theorem of_changes (grown : c.pool.Extends c'.pool)
    (changes : List.Forall₂ (fun m m' => m'.access = m.access ∧ SameKey m m') c.methods c'.methods) :
    Conceals c c' [] := by
  refine ⟨grown, fun m' mem hidden => ?_⟩
  obtain ⟨m, old, access, same⟩ := forall₂_mem_right changes mem
  exact .inl ⟨m, old, by rwa [Member.isPrivate, ← access], same⟩

theorem trans {added added' : List PlannedMethod} (h : Conceals c c' added)
    (h' : Conceals c' c'' added') : Conceals c c'' (added ++ added') := by
  refine ⟨h.grown.trans h'.grown, fun m'' mem hidden => ?_⟩
  rcases h'.methods m'' mem hidden with ⟨m', mem', hidden', same⟩ | ⟨a, mem', hidden', has⟩
  · rcases h.methods m' mem' hidden' with ⟨m, old, hidden, same'⟩ | ⟨a, old, hidden, has⟩
    · exact .inl ⟨m, old, hidden, same.1.trans same'.1, same.2.trans same'.2⟩
    · have still := has.mono h'.grown
      exact .inr ⟨a, List.mem_append_left _ old, hidden, same.1 ▸ still.1, same.2 ▸ still.2⟩
  · exact .inr ⟨a, List.mem_append_right _ mem', hidden', has⟩

end Conceals

/-! ### Methods that are pushed -/

theorem builtMethod_access {access : Access} {name : String} {d : MethodDescriptor}
    {code : Build Unit} {m : Member} (h : builtMethod access name d code p = .ok m q) :
    m.access = access := by
  obtain ⟨bare, p₁, body, p₂, c, p₃, a, named, -, -, -, -, rfl⟩ := steps_of_builtMethod h
  exact (Member.named_eq_ok named).2.1

theorem PlannedMethod.member_access {m : PlannedMethod} {helpers : List Helper} {added : Member}
    (h : m.member owner helpers p = .ok added q) : added.access = m.access := by
  obtain ⟨built, p₁, listed, first, rfl, -⟩ := steps_of_member {} h
  show built.access = m.access
  exact builtMethod_access first

/-! ### The steps of weaving -/

theorem PlannedIntercept.movedMethod_access {i : PlannedIntercept} {m moved : Member}
    {code : Attribute} (h : i.movedMethod m code p = .ok moved q) :
    moved.access = (m.access \ movedClears) ∪ .accSynthetic := by
  obtain ⟨bare, p', named, h⟩ := step_bind_eq_ok.1 h
  obtain ⟨rfl, -⟩ := step_pure_eq_ok.1 h
  exact (Member.named_eq_ok (edit_change_eq_ok.1 named)).2.1

/-- The body that moves is private no more; what stays in its place is as private as it was. -/
theorem PlannedIntercept.conceals_weave {i : PlannedIntercept}
    (h : i.weave owner c = .ok () c') : Conceals c c' [] := by
  have grown := (weave_eq_ok {} h).1.pool.keeps
  obtain ⟨m, code, moved, wrapped, p₁, p₂, found, -, movement, wrapping, rfl⟩ := weave_steps h
  obtain ⟨-, wrapper, rfl, -⟩ := wrappedMethod_eq_ok {} wrapping
  refine ⟨grown, fun m' mem hidden => .inl ?_⟩
  rcases List.mem_append.1 mem with mem | mem
  · rcases List.mem_or_eq_of_mem_set mem with mem | rfl
    · exact ⟨m', mem, hidden, rfl, rfl⟩
    · have access : (m.access \ .accSynchronized).has .accPrivate = m.access.has .accPrivate :=
        Access.has_diff (by decide)
      exact ⟨m, List.mem_of_getElem? found, access.symm.trans hidden, rfl, rfl⟩
  · rw [List.mem_singleton.1 mem, Member.isPrivate, movedMethod_access movement,
      Access.not_has_diff_union (by decide) (by decide) (by decide)] at hidden
    cases hidden

theorem PlannedIntercept.conceals_intercepts {is : List PlannedIntercept}
    (h : is.forM (·.weave owner) c = .ok ⟨⟩ c') : Conceals c c' [] := by
  induction is generalizing c with
  | nil =>
    cases h
    exact .of_same (.refl _) rfl
  | cons i is ih =>
    obtain ⟨⟨⟩, c₁, first, rest⟩ := step_bind_eq_ok.1 h
    exact (conceals_weave first).trans (ih rest)

theorem conceals_initializeInstances {fields : List PlannedField}
    (h : initializeInstances owner fields c = .ok () c') : Conceals c c' [] := by
  obtain ⟨keeps, -, -, changes⟩ := initializeInstances_eq_ok {} h
  refine .of_changes keeps.pool.keeps (changes.imp fun m m' change => ?_)
  rcases change with rfl | ⟨-, r, -, -, -, -, code, rfl⟩
  · exact ⟨rfl, rfl, rfl⟩
  · exact ⟨rfl, rfl, rfl⟩

theorem conceals_initializeStatics {fields : List PlannedField}
    (h : initializeStatics owner fields c = .ok () c') : Conceals c c' [] := by
  have grown := (initializeStatics_eq_ok {} h).1.pool.keeps
  rcases initializeStatics_cases h with ⟨-, rfl⟩ | ⟨-, ⟨-, pushed⟩ | ⟨m, code, body, code', q, -, -,
    -, -, rfl⟩⟩
  · exact .of_same (.refl _) rfl
  · obtain ⟨m, q, built, rfl⟩ := pushMethod_steps pushed
    refine ⟨grown, fun m' mem hidden => .inl ?_⟩
    rcases List.mem_append.1 mem with mem | mem
    · exact ⟨m', mem, hidden, rfl, rfl⟩
    · rw [List.mem_singleton.1 mem, Member.isPrivate, builtMethod_access built] at hidden
      exact absurd hidden (by decide)
  · refine .of_changes grown ((forall₂_updateFirst c.methods).imp ?_)
    rintro m m' (rfl | ⟨-, rfl⟩)
    · exact ⟨rfl, rfl, rfl⟩
    · exact ⟨rfl, rfl, rfl⟩

theorem PlannedMethod.conceals_pushAll {helpers : List Helper} {ms : List PlannedMethod}
    (h : ms.forM (fun m => pushMethod (m.member owner helpers)) c = .ok ⟨⟩ c')
    (sound : c.pool.Sound) : Conceals c c' ms := by
  induction ms generalizing c with
  | nil =>
    cases h
    exact .of_same (.refl _) rfl
  | cons m ms ih =>
    obtain ⟨⟨⟩, c₁, first, rest⟩ := step_bind_eq_ok.1 h
    obtain ⟨added, q, made, rfl⟩ := pushMethod_steps first
    have emitted := member_eq_ok {} made
    have one : Conceals c { c with pool := q, methods := c.methods ++ [added] } [m] := by
      refine ⟨emitted.grown.keeps, fun m' mem hidden => ?_⟩
      rcases List.mem_append.1 mem with mem | mem
      · exact .inl ⟨m', mem, hidden, rfl, rfl⟩
      · rw [List.mem_singleton.1 mem] at hidden ⊢
        rw [Member.isPrivate, member_access made] at hidden
        exact .inr ⟨m, List.mem_singleton_self m, hidden, emitted.named sound, emitted.typed sound⟩
    exact one.trans (ih rest (emitted.grown.sound sound))

namespace Plan

/-- Weaving makes no method private but those that are planned so. -/
theorem conceals_of_weave (h : plan.weave owner c = .ok () c') (sound : c.pool.Sound) :
    Conceals c c' plan.methods := by
  obtain ⟨c₁, c₂, c₃, c₄, c₅, c₆, stages⟩ := stages_of_weave {} h sound
  have before := (((PlannedIntercept.conceals_intercepts stages.intercepted).trans
    (.of_same stages.keeps₂.pool.keeps stages.methods)).trans
      (conceals_initializeInstances stages.constructed)).trans
        (conceals_initializeStatics stages.initialized)
  have after := (PlannedMethod.conceals_pushAll stages.added (stages.keepsTo₄.pool.sound sound)).trans
    (.of_same stages.marked.keeps.pool.keeps stages.marked.methods)
  simpa using before.trans after

end Plan

/-! ## What helpers name -/

/-- The name and the descriptor that the code of the helper names in its owner. -/
def HelperKind.key : HelperKind → String × String
  | .field name type .. => (name, type.descriptor)
  | .call name d _ | .method name d _ => (name, d.descriptor)

/-- The members of the owner that the code of the helper can name. -/
def HelperKind.members (c : ClassFile) : HelperKind → List Member
  | .field .. => c.fields
  | .call .. | .method .. => c.methods

namespace Plan

variable {composition : Composition σ} {weaving : Options} {l l' : Ledger σ} {image : Bytes}
  {decoding again : Nat} {s : ClassSite} {images : WovenImages}

/-- Fields of one name are planned once. -/
theorem NamesFields.eq_of_name {fields : List PlannedField} (h : NamesFields s fields)
    {f g : PlannedField} (mem : f ∈ fields) (mem' : g ∈ fields) (same : f.name = g.name) : f = g := by
  have distinct : (fields.map (·.name)).Nodup :=
    List.pairwise_map.2 (h.apart.imp fun apart => apart.1)
  exact List.inj_on_of_nodup_map distinct mem mem' same

/-- A field of the woven class has the flags that were found under its name and its type. -/
theorem access_eq_of_finds (tells : s.Tells c) (names : NamesFields s plan.fields)
    (spares : plan.SparesHolders) (distinct : s.fieldTypes.Nodup) (grown : c.pool.Extends q)
    {groups : List (List Member)}
    (declared : List.Forall₂ (PlannedField.IsDeclared q) plan.fields groups)
    {methods : List PlannedMethod} {name : String} {type : JType} {isStatic isFinal : Bool}
    {access : Access}
    (found : Finds s plan.fields methods (.field name type isStatic isFinal) access)
    {m : Member} (mem : m ∈ c.fields ++ groups.flatten)
    (key : m.key? q = some (name, type.descriptor)) : m.access = access := by
  have listed := ClassSite.forall₂_of_memberTypes tells.fieldTypes
  have known (m : Member) (mem : m ∈ c.fields) : m.key? q = m.key? c.pool := by
    obtain ⟨t, -, named, text, described, -⟩ := forall₂_mem_left listed mem
    exact Member.key?_mono ⟨⟨_, named⟩, _, described⟩ grown
  cases found with
  | field name f found =>
    obtain rfl : f.name = name := by simpa using List.find?_some found
    obtain ⟨n, at_n, typed⟩ := ClassSite.mem_fields (List.mem_of_find?_eq_some found)
    rw [tells.classFile] at at_n
    rcases List.mem_append.1 mem with mem | mem
    · obtain ⟨t, typed', -, text, -, parsed⟩ := forall₂_getElem? listed at_n
      cases typed.symm.trans typed'
      have reads := JType.ofDescriptor_descriptor (JType.spelled_of_ofDescriptor parsed)
      rw [known m mem] at key
      exact congrArg Member.access
        (member_eq_of_key JType.descriptor listed distinct at_n typed reads mem key)
    · obtain ⟨group, grouped, mem⟩ := List.mem_flatten.1 mem
      obtain ⟨g, planned, is_declared⟩ := forall₂_mem_right declared grouped
      have own := List.mem_of_getElem? typed
      rcases is_declared.of_key mem key with ⟨same, -⟩ | ⟨holder, held, same⟩
      · exact absurd (Prod.mk.inj same).1 ((names.free g planned).name _ own)
      · exact absurd (Prod.mk.inj same).1 ((names.free g planned).holder holder held _ own)
  | plannedField f planned =>
    rcases List.mem_append.1 mem with mem | mem
    · rw [known m mem] at key
      obtain ⟨t, own, same⟩ := mem_types_of_key listed mem key
      exact absurd same ((names.free f planned).name t own)
    · obtain ⟨group, grouped, mem⟩ := List.mem_flatten.1 mem
      obtain ⟨g, planned', is_declared⟩ := forall₂_mem_right declared grouped
      rcases is_declared.of_key mem key with ⟨same, access⟩ | ⟨holder, held, same⟩
      · obtain rfl := names.eq_of_name planned planned' (Prod.mk.inj same).1
        exact access
      · obtain ⟨name, type⟩ := Prod.mk.inj same
        exact absurd type (spares g planned' f planned holder held name)

/-- A private method of the woven class was private before, under the same name and descriptor, or
is planned so. -/
theorem private_of_key (decoded : c.Decoded options) (conceals : Conceals c c' plan.methods)
    (grown : c'.pool.Extends q) (small : q.size < 65536) {m : Member} (mem : m ∈ c'.methods)
    (hidden : m.isPrivate = true) {key : String × String} (named : m.key? q = some key) :
    (∃ old ∈ c.methods, old.isPrivate = true ∧ old.key? c.pool = some key) ∨
      ∃ a ∈ plan.methods, a.access.has .accPrivate = true ∧ a.key = key := by
  rcases conceals.methods m mem hidden with ⟨old, mem, hidden, same⟩ | ⟨a, mem, hidden, has⟩
  · refine .inl ⟨old, mem, hidden, ?_⟩
    rw [← Member.key?_mono (decoded.names old (List.mem_append_right _ mem))
      (conceals.grown.trans grown), ← named, Member.key?, Member.key?, same.1, same.2]
  · have held := has.mono grown
    have own := Member.key?_eq_some (Member.isNamed_iff.2
      ⟨held.1.utf8 small.le, held.2.utf8 small.le⟩)
    exact .inr ⟨a, mem, hidden, Option.some.inj (own.symm.trans named)⟩

/-- A method is private in the woven class only if it was found to be so. -/
theorem private_of_finds (declarable : plan.Declarable c) (lists : s.Lists c)
    (names : NamesMethods s plan.methods) (distinct : s.methodTypes.Nodup)
    {fields : List PlannedField} {name : String} {d : MethodDescriptor} {isStatic : Bool}
    {access : Access} (found : Finds s fields plan.methods (.method name d isStatic) access)
    (hidden : (∃ m ∈ c.methods, m.isPrivate = true ∧ m.key? c.pool = some (name, d.descriptor)) ∨
      ∃ a ∈ plan.methods, a.access.has .accPrivate = true ∧ a.key = (name, d.descriptor)) :
    access.has .accPrivate = true := by
  cases found with
  | method name d own found =>
    obtain ⟨rfl, typed⟩ : own.name = name ∧ own.descriptor.descriptor = d.descriptor := by
      simpa using List.find?_some found
    obtain ⟨n, -, at_n, listed⟩ := ClassSite.mem_methods (List.mem_of_find?_eq_some found)
    rcases hidden with ⟨m, mem, hidden, key⟩ | ⟨a, added, -, same⟩
    · rw [lists.classFile] at at_n
      obtain ⟨t, listed', -, text, -, parsed⟩ := forall₂_getElem? lists.methods at_n
      cases listed.symm.trans listed'
      have reads := MethodDescriptor.ofText_descriptor (MethodDescriptor.spelled_of_ofText parsed)
      rw [← typed] at key
      have same := member_eq_of_key MethodDescriptor.descriptor lists.methods distinct
        at_n listed reads mem key
      rwa [same] at hidden
    · obtain ⟨name, descriptor⟩ := Prod.mk.inj same
      exact absurd ⟨name.symm, typed.trans descriptor.symm⟩
        (names.free a added _ (List.mem_of_getElem? listed))
  | plannedMethod q planned =>
    rcases hidden with ⟨m, mem, -, key⟩ | ⟨a, added, hidden, same⟩
    · have old : some q.key ∈ c.methodKeys := key ▸ List.mem_map_of_mem mem
      exact (declarable.free old (List.mem_map_of_mem
        (List.mem_append_right _ (List.mem_map_of_mem planned)))).elim
    · exact List.inj_on_of_nodup_map declarable.methods added planned same ▸ hidden

/-- No private method of the woven class has the name under which a body is kept. -/
theorem not_private_kept (declarable : plan.Declarable c) {i : PlannedIntercept}
    (planned : i ∈ plan.intercepts) :
    ¬ ((∃ m ∈ c.methods, m.isPrivate = true ∧ m.key? c.pool = some i.key) ∨
      ∃ a ∈ plan.methods, a.access.has .accPrivate = true ∧ a.key = i.key) := by
  have kept := List.mem_map_of_mem (f := PlannedIntercept.key) planned
  rintro (⟨m, mem, -, key⟩ | ⟨a, added, -, same⟩)
  · have old : some i.key ∈ c.methodKeys := key ▸ List.mem_map_of_mem mem
    exact declarable.free old (List.mem_map_of_mem (List.mem_append_left _ kept))
  · exact declarable.apart kept (same ▸ List.mem_map_of_mem added)

/-- No helper names a private member of its owner unless the helpers join the nest of it, if the class
has nothing twice and no field is planned under the name of a holder. -/
theorem grants_of_apply (planned : ofComposition weaving composition l = .ok plan l')
    (internal : composition.Internal) (distinct : composition.site.Distinct)
    (spares : plan.SparesHolders)
    (site : ClassSite.ofBytes options decoding image = .ok composition.site)
    (site' : ClassSite.ofBytes options again image = .ok s) (applied : plan.apply s = .ok images) :
    ∃ c w, ClassFile.ofBytes options image = .ok c ∧
      ClassFile.ofBytes options images.primary = .ok w ∧
      ∀ h ∈ plan.helpers, ∀ m ∈ h.kind.members w, m.key? w.pool = some h.kind.key →
        m.isPrivate = true → plan.nests c = true := by
  obtain ⟨c, c', q, decoded, lists, woven, grown, small, read⟩ := woven_of_apply site site' applied
  refine ⟨c, _, decoded, read, fun h mem m member key hidden => ?_⟩
  obtain ⟨c₀, decoded₀, -, -, tells⟩ := ClassSite.ofBytes_eq_ok site
  cases decoded.symm.trans decoded₀
  have whole := ClassFile.decoded_of_ofBytes decoded
  have declarable := declarable_of_ofComposition planned internal lists
  obtain ⟨given, -, registers⟩ := registers_of_ofComposition planned
  obtain ⟨keeps, groups, fields, declared⟩ := keeps_of_weave options woven whole.readable.pool
  have conceals := conceals_of_weave woven whole.readable.pool
  obtain ⟨-, -, accessors, helpers, reached⟩ := helpers_of_ofComposition planned
  have granted (hosts : hostsNest weaving composition.site.classFile = true) :
      plan.nests c = true := by
    have some : plan.helpers ≠ [] := List.ne_nil_of_mem mem
    rw [nests, options_of_ofComposition planned, ← lists.classFile, hosts]
    simpa using some
  rw [helpers] at mem
  rcases List.mem_append.1 mem with accessor | call
  · obtain ⟨access, found, grant⟩ := reached h accessor
    refine granted (grant ?_)
    cases kind : h.kind with
    | field name type isStatic isFinal =>
      rw [kind] at found member key
      have member : m ∈ c'.fields := member
      rw [fields] at member
      have same := access_eq_of_finds tells registers.names spares distinct.fields
        (keeps.pool.keeps.trans grown) (declared q grown small) found member key
      exact same ▸ hidden
    | method name d isStatic =>
      rw [kind] at found member key
      exact private_of_finds declarable lists registers.namesMethods distinct.methods found
        (private_of_key whole conceals grown small member hidden key)
    | call name d isStatic =>
      rw [kind] at found
      cases found
  · obtain ⟨i, intercepted, rfl⟩ := List.mem_map.1 call
    exact (not_private_kept declarable intercepted
      (private_of_key whole conceals grown small member hidden key)).elim

/-- Asks for the fields of `shadowingComposition`, and for a method that uses the second. -/
def pryingComposition : Composition Unit :=
  { shadowingComposition with
    additions := shadowingComposition.additions ++ [.addMethod
      { access := .accStatic, name := "peek", descriptor := ⟨[], .void⟩, code := fun _ _ _ => pure .null
        fields := [holderName "x"] }] }

/-- The accessor that is planned for the second field names the holder of the first as well, which is
private. -/
theorem private_prying : ∃ plan ledger,
    ofComposition { nestAttributes := false } pryingComposition ⟨{ number := 1 }, 1⟩ =
      .ok plan ledger ∧
      ∀ images, plan.apply plainSite = .ok images → ∃ c w, ClassFile.ofBytes {} plainImage = .ok c ∧
        ClassFile.ofBytes {} images.primary = .ok w ∧ plan.nests c = false ∧
          ∃ h ∈ plan.helpers, ∃ m ∈ h.kind.members w, m.key? w.pool = some h.kind.key ∧
            m.isPrivate = true := by
  obtain ⟨plan, ledger, planned, summary⟩ : ∃ plan ledger,
      ofComposition { nestAttributes := false } pryingComposition ⟨{ number := 1 }, 1⟩ =
        .ok plan ledger ∧ (plan.options.nestAttributes, plan.helpers.map (·.kind),
          plan.fields.map fun f => (f.name, f.init.holder?)) =
          (false, [.field (holderName "x") .string true false],
            [("x", some (holderName "x")), (holderName "x", none)]) :=
    exists_ofComposition (by decide +kernel)
  simp only [Prod.mk.injEq] at summary
  obtain ⟨apart, kinds, fields⟩ := summary
  obtain ⟨h, rest, helpers, kind, -⟩ := List.map_eq_cons_iff.1 kinds
  obtain ⟨f, others, planned_fields, computed, -⟩ := List.map_eq_cons_iff.1 fields
  have named : f.init.holder? = some (holderName "x") := (Prod.mk.inj computed).2
  refine ⟨plan, ledger, planned, fun images applied => ?_⟩
  obtain ⟨c, c', q, decoded, -, woven, grown, small, read⟩ :=
    woven_of_apply ofBytes_plainImage ofBytes_plainImage applied
  have sound := (ClassFile.decoded_of_ofBytes decoded).readable.pool
  obtain ⟨-, groups, appended, declared⟩ := keeps_of_weave {} woven sound
  obtain ⟨group, grouped, own, -, init⟩ := forall₂_mem_left (declared q grown small)
    (planned_fields ▸ List.mem_cons_self : f ∈ plan.fields)
  refine ⟨c, _, decoded, read, ?_, h, by simp [helpers], ?_⟩
  · simp [nests, hostsNest, apart]
  cases how : f.init with
  | callback token holder =>
    rw [how] at init named
    cases named
    obtain ⟨m, rfl, -, held, -⟩ := init
    rw [kind]
    refine ⟨m, ?_, Member.key?_eq_some held.named, by rw [Member.isPrivate, held.access]; decide⟩
    show m ∈ c'.fields
    rw [appended]
    exact List.mem_append_right _ (List.mem_flatten.2 ⟨_, grouped, List.mem_cons_self⟩)
  | default | constant value | store value =>
    rw [how] at named
    cases named

end Plan

end Weave

end Weft
