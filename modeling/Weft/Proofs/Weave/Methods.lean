import Weft.Proofs.Signature.Printing
import Weft.Proofs.Weave.Fields

/-!
# The methods of woven classes

A woven class has the methods that it had, in their places, and behind them the kept bodies, a class
initializer if it needs one and has none, and the added methods. The names come from four places at
different times, but each is given only where it is free: so the methods of a woven class are
distinct if those of the class are.
-/

namespace Weft

variable {options : DecodeOptions} {p q : Pool} {σ : Type}

/-- The names and the descriptors of the methods. -/
def ClassFile.methodKeys (c : ClassFile) : List (Option (String × String)) :=
  c.methods.map (·.key? c.pool)

theorem ClassFile.methodKeys_mono {c : ClassFile} (decoded : c.Decoded options)
    (grown : c.pool.Extends q) : c.methods.map (·.key? q) = c.methodKeys :=
  List.map_congr_left fun m mem =>
    Member.key?_mono (decoded.names m (List.mem_append_right _ mem)) grown

/-- The descriptors that are asked for name classes in their internal form, without dots. -/
structure Composition.Internal (c : Composition σ) : Prop where
  added : ∀ m, Injection.addMethod m ∈ c.additions → '.' ∉ m.descriptor.descriptor.toList
  asked : ∀ a ∈ c.methods, '.' ∉ a.1.descriptor.descriptor.toList

namespace Weave

variable {owner : ClassName} {c c' c'' : ClassFile}

/-! ## Free names -/

namespace Planner

end Planner

/-! ## What each step declares -/

/-- The member has the name and the descriptor of the other. -/
def SameKey (m m' : Member) : Prop := m'.name = m.name ∧ m'.descriptor = m.descriptor

/-- The pool has the name and the descriptor of the member. -/
def HasKey (p : Pool) (key : String × String) (m : Member) : Prop :=
  p.Holds m.name (.utf8 key.1) ∧ p.Holds m.descriptor (.utf8 key.2)

theorem HasKey.mono {key : String × String} {m : Member} (h : HasKey p key m)
    (grown : p.Extends q) : HasKey q key m := ⟨h.1.mono grown, h.2.mono grown⟩

/-- The methods of the first class are declared in the second as they were, and behind them methods
of those names and descriptors. -/
structure Declares (c c' : ClassFile) (keys : List (String × String)) : Prop where
  grown : c.pool.Extends c'.pool
  methods : ∃ base added, c'.methods = base ++ added ∧ List.Forall₂ SameKey c.methods base ∧
    List.Forall₂ (HasKey c'.pool) keys added

namespace Declares

/-- The methods stay as they are declared. -/
theorem of_same (grown : c.pool.Extends c'.pool)
    (same : List.Forall₂ SameKey c.methods c'.methods) :
    Declares c c' [] := ⟨grown, c'.methods, [], (List.append_nil _).symm, same, .nil⟩

theorem of_methods (grown : c.pool.Extends c'.pool) (same : c'.methods = c.methods) :
    Declares c c' [] := .of_same grown (same ▸ List.forall₂_same.2 fun _ _ => ⟨rfl, rfl⟩)

theorem trans {keys keys' : List (String × String)} (h : Declares c c' keys)
    (h' : Declares c' c'' keys') : Declares c c'' (keys ++ keys') := by
  obtain ⟨base, added, methods, same, declared⟩ := h.methods
  obtain ⟨base', added', methods', same', declared'⟩ := h'.methods
  rw [methods] at same'
  obtain ⟨first, second, rfl, before, behind⟩ := forall₂_append_left same'
  refine ⟨h.grown.trans h'.grown, first, second ++ added', ?_, ?_, ?_⟩
  · rw [methods', List.append_assoc]
  · exact forall₂_trans same before fun m m₁ m₂ one two =>
      ⟨two.1.trans one.1, two.2.trans one.2⟩
  · refine List.rel_append (forall₂_trans declared behind fun key m m' has same => ?_) declared'
    have still := has.mono h'.grown
    exact ⟨same.1 ▸ still.1, same.2 ▸ still.2⟩

/-- In a pool that can be written the members have the names and descriptors that were declared. -/
theorem keys {keys : List (String × String)} (h : Declares c c' keys) (decoded : c.Decoded options)
    (grown : c'.pool.Extends q) (small : q.size < 65536) :
    c'.methods.map (·.key? q) = c.methodKeys ++ keys.map some := by
  obtain ⟨base, added, methods, same, declared⟩ := h.methods
  rw [methods, List.map_append]
  congr 1
  · rw [← ClassFile.methodKeys_mono decoded (h.grown.trans grown)]
    refine map_eq_of_forall₂ same fun m m' same => ?_
    rw [Member.key?, Member.key?, same.1, same.2]
  · refine map_eq_of_forall₂ declared fun key m has => ?_
    have held := has.mono grown
    exact Member.key?_eq_some (Member.isNamed_iff.2
      ⟨held.1.utf8 small.le, held.2.utf8 small.le⟩)

end Declares

/-! ## The steps of weaving -/

/-- The name and the descriptor that the body of an intercepted method is kept under. -/
def PlannedIntercept.key (i : PlannedIntercept) : String × String :=
  (i.keptAs, i.site.descriptor.descriptor)

/-- The name and the descriptor of an added method. -/
def PlannedMethod.key (m : PlannedMethod) : String × String := (m.name, m.descriptor.descriptor)

/-- The name and the descriptor of class initializers. -/
def initializerKey : String × String := ("<clinit>", plainDescriptor.descriptor)

namespace PlannedIntercept

end PlannedIntercept

/-- A method that is free in the sight of planning has none of the keys of the class. -/
theorem not_mem_methodKeys {s : ClassSite} (lists : s.Lists c) {name descriptor : String}
    (internal : '.' ∉ descriptor.toList)
    (free : ∀ t ∈ s.methodTypes, ¬ (t.1 = name ∧ t.2.descriptor = descriptor)) :
    some (name, descriptor) ∉ c.methodKeys := by
  intro mem
  obtain ⟨m, mem, same⟩ := List.mem_map.1 mem
  obtain ⟨t, typed, named, text, described, parsed⟩ := forall₂_mem_left lists.methods mem
  rw [Member.key?_eq_some (Member.isNamed_iff.2 ⟨named, described⟩)] at same
  cases same
  exact free t typed ⟨rfl, MethodDescriptor.descriptor_of_ofText parsed internal⟩

namespace Plan

variable {plan : Plan} {composition : Composition σ} {weaving : Options} {l l' : Ledger σ}
  {image : Bytes} {decoding again : Nat} {s : ClassSite} {images : WovenImages}

/-- What is declared beside the methods of a class for a plan. -/
def keys (plan : Plan) (created : List (String × String)) : List (String × String) :=
  plan.intercepts.map (·.key) ++ created ++ plan.methods.map (·.key)

/-- Bodies are kept under names of their own. -/
theorem nodup_intercepts (planned : ofComposition weaving composition l = .ok plan l') :
    (plan.intercepts.map (·.key)).Nodup := by
  obtain ⟨-, -, -, distinct⟩ := intercepts_of_ofComposition planned
  refine List.Nodup.of_map (fun key => key.1 ++ key.2) ?_
  rwa [List.map_map]

/-- What a plan declares is free in its class, and distinct. -/
structure Declarable (plan : Plan) (c : ClassFile) : Prop where
  intercepts : (plan.intercepts.map (·.key)).Nodup
  methods : (plan.methods.map (·.key)).Nodup
  apart : List.Disjoint (plan.intercepts.map (·.key)) (plan.methods.map (·.key))
  initializer : initializerKey ∉ plan.methods.map (·.key)
  free : List.Disjoint c.methodKeys
    ((plan.intercepts.map (·.key) ++ plan.methods.map (·.key)).map some)

theorem declarable_of_ofComposition
    (planned : ofComposition weaving composition l = .ok plan l') (internal : composition.Internal)
    (lists : composition.site.Lists c) : plan.Declarable c := by
  obtain ⟨-, sites, ⟨st, methods, each⟩, -⟩ := intercepts_of_ofComposition planned
  obtain ⟨given, -, registers⟩ := registers_of_ofComposition planned
  constructor
  case intercepts => exact nodup_intercepts planned
  case methods =>
    refine List.pairwise_map.2 (registers.namesMethods.apart.imp fun apart same => ?_)
    exact apart (Prod.mk.inj same)
  case apart =>
    intro key kept added
    obtain ⟨i, mem, rfl⟩ := List.mem_map.1 kept
    obtain ⟨m, mem', same⟩ := List.mem_map.1 added
    exact (each i mem).apart.2 m (methods ▸ mem') (Prod.mk.inj same)
  case initializer =>
    intro mem
    obtain ⟨m, mem, same⟩ := List.mem_map.1 mem
    have plain := registers.plain m mem
    rw [show m.name = "<clinit>" from (Prod.mk.inj same).1] at plain
    revert plain
    decide +kernel
  case free =>
    intro key? old new
    obtain ⟨key, listed, rfl⟩ := List.mem_map.1 new
    rcases List.mem_append.1 listed with mem | mem
    · obtain ⟨i, intercepted, rfl⟩ := List.mem_map.1 mem
      obtain ⟨a, asked, site⟩ := List.mem_map.1 (sites.subset (List.mem_map_of_mem intercepted))
      exact not_mem_methodKeys lists (site ▸ internal.asked a asked)
        (each i intercepted).apart.1 old
    · obtain ⟨m, added, rfl⟩ := List.mem_map.1 mem
      obtain ⟨d, declared, carries⟩ := forall₂_mem_right registers.carries.methods added
      obtain ⟨i, addition, same⟩ := List.mem_filterMap.1 declared
      have dotless : '.' ∉ m.descriptor.descriptor.toList := by
        rw [carries.2.1]
        cases i <;> cases same
        exact internal.added d addition
      exact not_mem_methodKeys lists dotless (registers.namesMethods.free m added) old

theorem Declarable.nodup (h : plan.Declarable c) (distinct : c.methodKeys.Nodup)
    {created : List (String × String)} (fresh : created = [] ∨ created = [initializerKey] ∧
      some initializerKey ∉ c.methodKeys ++ (plan.intercepts.map (·.key)).map some) :
    (c.methodKeys ++ (plan.keys created).map some).Nodup := by
  have kept : (c.methodKeys ++ (plan.intercepts.map (·.key)).map some).Nodup := by
    refine List.nodup_append'.2 ⟨distinct, h.intercepts.map (Option.some_injective _), ?_⟩
    exact List.disjoint_of_subset_right (List.map_subset _ (List.subset_append_left _ _)) h.free
  have before : (c.methodKeys ++ (plan.intercepts.map (·.key)).map some ++
      created.map some).Nodup := by
    rcases fresh with rfl | ⟨rfl, fresh⟩
    · simpa using kept
    · refine List.nodup_append'.2 ⟨kept, List.nodup_singleton _, ?_⟩
      exact List.disjoint_singleton.2 fresh
  have apart : List.Disjoint (c.methodKeys ++ (plan.intercepts.map (·.key)).map some ++
      created.map some) ((plan.methods.map (·.key)).map some) := by
    refine List.disjoint_append_left.2 ⟨List.disjoint_append_left.2 ⟨?_, ?_⟩, ?_⟩
    · exact List.disjoint_of_subset_right (List.map_subset _ (List.subset_append_right _ _)) h.free
    · exact List.disjoint_map (Option.some_injective _) h.apart
    · refine List.disjoint_map (Option.some_injective _) ?_
      rcases fresh with rfl | ⟨rfl, -⟩
      · exact List.disjoint_nil_left _
      · exact List.singleton_disjoint.2 h.initializer
  have added := h.methods.map (Option.some_injective _)
  have whole := List.nodup_append'.2 ⟨before, added, apart⟩
  simpa [keys] using whole

end Plan

end Weave

end Weft
