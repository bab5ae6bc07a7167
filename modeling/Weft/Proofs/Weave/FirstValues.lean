import Weft.Proofs.Weave.Construction
import Weft.Proofs.Weave.Fields
import Weft.Proofs.Weave.Population

/-!
# First values of added fields

The fields that are added to the objects of a class get their first values once for each object.
Where the constructors of the class are plain, each run of one of the woven class is that of the
constructor which the class had, with the assignments of the fields, in the order of their
injections, directly behind the call of the superclass's constructor. Constructors that delegate are
as they were.
-/

namespace Weft

variable {σ : Type} {options : DecodeOptions} {p q r : Pool} {owner : ClassName}

open Weave

/-! ## Declared fields -/

/-- The assignment by which the declared field of an object gets its first value. -/
def FieldDeclaration.firstValue? (owner : ClassName) (d : FieldDeclaration σ) : Option Assignment :=
  let field : Machine.FieldKey := ⟨owner.internal, d.name, d.type.descriptor⟩
  if d.access.isStatic then none
  else match d.initial with
    | .none => none
    | .constant value => some ⟨.this, field, .literal value⟩
    | .computed _ => some ⟨.this, field, unboxed d.type (asked owner (holderName d.name))⟩

/-- The assignments of first values to the fields of an object, in the order of their injections. -/
def Composition.firstValues (c : Composition σ) : List Assignment :=
  (c.additions.filterMap (·.field?)).filterMap (·.firstValue? c.site.name)

namespace Weave

theorem PlannedField.Follows.firstValue? {d : FieldDeclaration σ} {f : PlannedField}
    (h : f.Follows d) : d.firstValue? owner =
      if f.isStatic == false && f.needsCode then f.firstValue? owner else none := by
  obtain ⟨access, name, type, init⟩ := h
  unfold FieldDeclaration.firstValue? PlannedField.firstValue? PlannedField.isStatic
    PlannedField.needsCode
  rw [access, name, type]
  cases static : d.access.isStatic with
  | true => rfl
  | false =>
    rw [static] at init
    cases initial : d.initial with
    | none | constant value =>
      rw [initial] at init
      rw [init]
      rfl
    | computed initializer =>
      rw [initial] at init
      obtain ⟨token, init⟩ := init
      rw [init]
      rfl

/-- What is planned as it is declared gets the values that are declared. -/
theorem firstValues_of_follows {declared : List (FieldDeclaration σ)} {fields : List PlannedField}
    (h : List.Forall₂ PlannedField.Follows declared fields) :
    (pendingFields false fields).filterMap (·.firstValue? owner) =
      declared.filterMap (·.firstValue? owner) := by
  unfold pendingFields
  rw [List.filterMap_filter]
  induction h with
  | nil => rfl
  | cons first _ ih => rw [List.filterMap_cons, List.filterMap_cons, first.firstValue?, ih]

theorem instances_of_pending {fields : List PlannedField} :
    ∀ f ∈ pendingFields false fields, f.isStatic = false := by
  intro f mem
  have kept := (List.mem_filter.1 mem).2
  rw [Bool.and_eq_true, beq_iff_eq] at kept
  exact kept.1

theorem PlannedField.name_of_firstValue? {f : PlannedField} {a : Assignment}
    (h : f.firstValue? owner = some a) : a.field.name = f.name := by
  unfold firstValue? at h
  split at h <;> cases h <;> rfl

/-- No field is assigned twice. -/
theorem nodup_firstValues {fields : List PlannedField}
    (apart : fields.Pairwise PlannedField.Apart) :
    ((fields.filterMap (·.firstValue? owner)).map (·.field)).Nodup := by
  rw [List.Nodup, List.pairwise_map, List.pairwise_filterMap]
  refine apart.imp fun apart a first a' first' same => apart.1 ?_
  rw [← PlannedField.name_of_firstValue? first, ← PlannedField.name_of_firstValue? first', same]

end Weave

/-! ## One constructor -/

namespace Weave

theorem map_mapLabels_of_straight {is : List Instruction} (straight : ∀ i ∈ is, i.targets = [])
    (g : Label → Label) : is.map (·.mapLabels g) = is :=
  (List.map_congr_left fun i mem => Instruction.mapLabels_of_targets (straight i mem) g).trans
    (List.map_id is)

/-- Code in which fields of objects are assigned at the place of the call is split there, with the
assignments behind it. -/
theorem splits_of_insert {fields : List PlannedField} {m : Member} {s : Split}
    {code code' : CodeAttribute} {body : Body} {position : Nat} (splits : m.Splits p s)
    (coded : m.code? = some code) (read : Body.ofCode code p = .ok body)
    (before : body.instructionsBefore position = s.before ++ [s.call])
    (after : body.instructionsFrom position = s.after)
    (inserted : insertAssignment owner fields code body position p = .ok code' q)
    (instances : ∀ f ∈ fields, f.isStatic = false) (sound : p.Sound)
    (readable : m.Readable options p) (later : p.Extends r) (grown : q.Extends r)
    (small : r.size < 65536) : ∃ part, (m.setCode code').Splits r (s.insert part) ∧
      Makes r part (fields.filterMap (·.firstValue? owner)) := by
  obtain ⟨short, changed⟩ := code_of_readable readable coded
  obtain ⟨g, b, part, read', instructions, makes⟩ :=
    insertAssignment_makes inserted instances sound read short grown small
  have straight := s.straight_insert splits.straight fun i mem => (makes.stays i mem).2
  have code_b : b.instructions = (s.insert part).code := by
    rw [s.code_insert] at straight ⊢
    rw [instructions, before, after,
      map_mapLabels_of_straight (fun i mem => straight i (List.mem_append_left _ mem)),
      map_mapLabels_of_straight fun i mem =>
        straight i (List.mem_append_right _ (List.mem_append_right _ mem))]
  exact ⟨part, ⟨⟨b, Member.body?_eq_some (changed code') read', code_b⟩, straight,
    splits.balanced.mono later, splits.calls.mono later⟩, makes⟩

/-- What assigning fields of objects leaves of a constructor: one that delegates stays, in others
the fields are assigned directly behind the call. -/
theorem splits_of_initializeIn {fields : List PlannedField} {m m' : Member} {s : Split}
    (h : initializeIn owner fields m p = .ok m' q) (needed : ∀ f ∈ fields, f.needsCode = true)
    (nonempty : fields ≠ []) (instances : ∀ f ∈ fields, f.isStatic = false)
    (special : p.utf8 m.name = .ok "<init>") (splits : m.Splits p s) (sound : p.Sound)
    (readable : m.Readable options p) (grown : q.Extends r) (small : r.size < 65536) :
    if s.target.owner = owner then m' = m
    else ∃ part, m'.Splits r (s.insert part) ∧
      Makes r part (fields.filterMap (·.firstValue? owner)) := by
  have later := (initializeIn_eq_ok options h needed nonempty).1.keeps.trans grown
  obtain ⟨b, body, -⟩ := splits.code
  obtain ⟨code, coded, read⟩ := Option.bind_eq_some_iff.1 body
  have read := except_toOption_eq_some.1 read
  obtain ⟨position, start, before, after⟩ := splits.constructorStart coded read
  split
  · rename_i own
    rw [if_pos own] at start
    rw [initializeIn_of_delegates special ⟨code, b, coded, read, start⟩] at h
    exact (step_pure_eq_ok.1 h).1.symm
  · rename_i other
    rw [if_neg other] at start
    rw [initializeIn_of_superCall ⟨special, coded, read, start⟩] at h
    obtain ⟨code', p', inserted, h⟩ := step_bind_eq_ok.1 h
    obtain ⟨rfl, rfl⟩ := step_pure_eq_ok.1 h
    exact splits_of_insert splits coded read before after inserted instances sound readable later
      grown small

/-! ## The constructors of a woven class -/

section Class

variable {c c' w : ClassFile} {plan : Plan} {as : List Assignment}

/-- Of all steps of weaving, one can change a constructor. -/
theorem Plan.initializeIn_of_weave (h : plan.weave owner c = .ok () c')
    (readable : c.Readable options)
    (ordinary : ∀ i ∈ plan.intercepts, ∃ m, c.methods[i.site.index.toNat]? = some m ∧
      Ordinary c.pool m) (small : c'.pool.size < 65536) {n : Nat} {m : Member}
    (at_n : c.methods[n]? = some m) (special : c.IsConstructor m) :
    ∃ m', c'.methods[n]? = some m' ∧ (pendingFields false plan.fields = [] ∧ m' = m ∨
      pendingFields false plan.fields ≠ [] ∧ ∃ p q, c.pool.GrowsTo p ∧
        initializeIn owner (pendingFields false plan.fields) m p = .ok m' q ∧
          q.Extends c'.pool) := by
  obtain ⟨c₁, c₂, c₃, c₄, c₅, c₆, stages⟩ := stages_of_weave options h readable.pool
  obtain ⟨-, -, -, base, added₄, methods₄, statics, -⟩ :=
    initializeStatics_eq_ok options stages.initialized
  obtain ⟨-, -, -, added₅, methods₅, -⟩ := PlannedMethod.pushAll_eq_ok options stages.added
    (stages.keepsTo₄.pool.sound readable.pool)
  have before := (stages.keeps₁.trans stages.keeps₂).pool
  have after := (stages.keeps₄.trans stages.keepsFrom₄).pool.keeps
  have few := Nat.lt_of_le_of_lt stages.keeps.pool.keeps.size_le small
  have other := PlannedIntercept.spares_constructor ordinary few at_n special
  have at₂ : c₂.methods[n]? = some m :=
    stages.methods ▸ PlannedIntercept.others_stay stages.intercepted readable.pool at_n other
  -- no method is both a constructor and the class initializer
  have place {m' : Member} (at₃ : c₃.methods[n]? = some m') (name : m'.name = m.name) :
      c'.methods[n]? = some m' := by
    obtain ⟨m'', at₄, change⟩ := forall₂_getElem? statics at₃
    obtain rfl : m'' = m' := change.resolve_right fun ⟨_, class_initializer, _⟩ => by
      have named := (Member.isNamed_iff.1 class_initializer).1
      rw [name, Pool.utf8_mono stages.keepsTo₃.pool.keeps special] at named
      simp at named
    have inside := (List.getElem?_eq_some_iff.1 at₄).1
    rw [stages.marked.methods, methods₅, methods₄, List.append_assoc,
      List.getElem?_append_left inside, at₄]
  rcases initializeIn_of_initializeInstances stages.constructed with
    ⟨none, rfl⟩ | ⟨nonempty, methods, pool₃, rfl, -, each⟩
  · exact ⟨m, place at₂ rfl, .inl ⟨none, rfl⟩⟩
  · obtain ⟨m', at₃, p, q, grown, made, later⟩ := forall₂_getElem? each at₂
    refine ⟨m', place at₃ ?_, .inr ⟨nonempty, p, q, before.trans grown, made,
      later.keeps.trans after⟩⟩
    obtain rfl | ⟨-, -, code, rfl⟩ := (initializeIn_eq_ok {} made needsCode_of_pending nonempty).2.1
    · rfl
    · rfl

/-- What weaving leaves of the constructors of a class. -/
structure Assigned (owner : ClassName) (as : List Assignment) (c w : ClassFile) : Prop where
  pool : c.pool.Extends w.pool
  named : ∀ (n : Nat) (m : Member), c.methods[n]? = some m → ∃ m', w.methods[n]? = some m' ∧
    ∀ name descriptor, m'.isNamed w.pool name descriptor = m.isNamed c.pool name descriptor
  /-- The assignments are made behind the call, unless it is one of a constructor of the class. -/
  each : ∀ (n : Nat) (m m' : Member), c.methods[n]? = some m → w.methods[n]? = some m' →
    c.IsConstructor m → ∀ s, m.Splits c.pool s → if s.target.owner = owner then m' = m
      else ∃ part, m'.Splits w.pool (s.insert part) ∧ Makes w.pool part as

/-- Names lead to constructors in the same place. -/
theorem Assigned.constructor? (h : Assigned owner as c w) {descriptor : String} {m : Member}
    (found : c.constructor? descriptor = some m) : ∃ (n : Nat) (m' : Member),
      c.methods[n]? = some m ∧ w.methods[n]? = some m' ∧ w.constructor? descriptor = some m' := by
  obtain ⟨special, n, inside, at_n, first⟩ := List.find?_eq_some_iff_getElem.1 found
  have at_n := List.getElem?_eq_some_iff.2 ⟨inside, at_n⟩
  obtain ⟨m', at_n', named⟩ := h.named n m at_n
  obtain ⟨inside', same⟩ := List.getElem?_eq_some_iff.1 at_n'
  refine ⟨n, m', at_n, at_n', List.find?_eq_some_iff_getElem.2
    ⟨(named _ _).trans special, n, inside', same, fun k before => ?_⟩⟩
  obtain ⟨x, at_k, named⟩ := h.named k _ (List.getElem?_eq_getElem (before.trans inside))
  rw [(List.getElem?_eq_some_iff.1 at_k).2, named]
  exact first k before

/-- A run of a constructor becomes one with the assignments directly behind the call. -/
theorem Assigned.constructs (h : Assigned owner as c w) {m : Member} {r : Construction}
    (run : c.Constructs owner m r) {n : Nat} {m' : Member} (at_n : c.methods[n]? = some m)
    (at_n' : w.methods[n]? = some m') (special : c.IsConstructor m) :
    ∃ part, Makes w.pool part as ∧ w.Constructs owner m' (r.insert part) := by
  induction run generalizing n m' with
  | @direct m s splits other =>
    have split := h.each n m m' at_n at_n' special s splits
    rw [if_neg other] at split
    obtain ⟨part, splits', makes⟩ := split
    refine ⟨part, makes, ?_⟩
    have run := ClassFile.Constructs.direct splits' other
    have behind := untilExit_append (fun i mem => (makes.stays i mem).1) s.after
    rwa [show (s.insert part).after = part ++ s.after from rfl, behind] at run
  | @delegated m m₁ s r splits own named run ih =>
    have same := h.each n m m' at_n at_n' special s splits
    rw [if_pos own] at same
    subst same
    obtain ⟨k, m₁', at_k, at_k', named'⟩ := h.constructor? named
    obtain ⟨part, makes, run'⟩ := ih at_k at_k' (ClassFile.constructor?_eq_some named).2
    exact ⟨part, makes, r.delegated_insert part s ▸ .delegated (splits.mono h.pool) own named' run'⟩

/-- The objects of the woven class get their first values once, however they are constructed. -/
structure InitializesOnce (owner : ClassName) (as : List Assignment) (c w : ClassFile) : Prop where
  once : (as.map (·.field)).Nodup
  /-- No constructor is dropped or added. -/
  constructors : ∀ n : Nat, (∃ m, c.methods[n]? = some m ∧ c.IsConstructor m) ↔
    ∃ m', w.methods[n]? = some m' ∧ w.IsConstructor m'
  /-- A constructor runs as it did, but for the assignments, which are made directly behind the call
  of the superclass's constructor. -/
  runs : ∀ (n : Nat) (m m' : Member), c.methods[n]? = some m → w.methods[n]? = some m' →
    c.IsConstructor m → ∃ r part, (∀ r', c.Constructs owner m r' ↔ r' = r) ∧
      (∀ r', w.Constructs owner m' r' ↔ r' = r.insert part) ∧ Makes w.pool part as
  delegating : ∀ (n : Nat) (m m' : Member), c.methods[n]? = some m → w.methods[n]? = some m' →
    c.IsConstructor m → ∀ m₁, c.DelegatesTo owner m m₁ → m' = m

theorem Assigned.runs (h : Assigned owner as c w) (plain : c.PlainConstructors owner) {n : Nat}
    {m m' : Member} (at_n : c.methods[n]? = some m) (at_n' : w.methods[n]? = some m')
    (special : c.IsConstructor m) : ∃ r part, (∀ r', c.Constructs owner m r' ↔ r' = r) ∧
      (∀ r', w.Constructs owner m' r' ↔ r' = r.insert part) ∧ Makes w.pool part as := by
  obtain ⟨r, run⟩ := plain.constructs (List.mem_of_getElem? at_n) special
  obtain ⟨part, makes, run'⟩ := h.constructs run at_n at_n' special
  exact ⟨r, part, fun _ => ⟨run.unique, fun same => same ▸ run⟩,
    fun _ => ⟨run'.unique, fun same => same ▸ run'⟩, makes⟩

theorem Assigned.delegating (h : Assigned owner as c w) {n : Nat} {m m' m₁ : Member}
    (at_n : c.methods[n]? = some m) (at_n' : w.methods[n]? = some m') (special : c.IsConstructor m)
    (delegates : c.DelegatesTo owner m m₁) : m' = m := by
  obtain ⟨-, s, splits, own, -⟩ := delegates
  have same := h.each n m m' at_n at_n' special s splits
  rwa [if_pos own] at same

/-- Methods keep their names. -/
theorem Arranged.isNamed {methods base moved rest : List Member}
    (h : Arranged plan owner c p methods base moved rest) (decoded : c.Decoded options)
    (grown : c.pool.Extends q) {n : Nat} {m : Member} (at_n : c.methods[n]? = some m) :
    ∃ m', methods[n]? = some m' ∧
      ∀ name descriptor, m'.isNamed q name descriptor = m.isNamed c.pool name descriptor := by
  obtain ⟨m', at_base, name, descriptor, -⟩ := h.kept n m at_n
  obtain ⟨⟨text, named⟩, text', typed⟩ :=
    decoded.names m (List.mem_append_right _ (List.mem_of_getElem? at_n))
  refine ⟨m', ?_, fun _ _ => ?_⟩
  · rw [h.whole, List.getElem?_append_left (List.getElem?_eq_some_iff.1 at_base).1, at_base]
  · rw [Member.isNamed, Member.isNamed, name, descriptor, named, typed, Pool.utf8_mono grown named,
      Pool.utf8_mono grown typed]

/-- All constructors stand in the places of methods of the class. -/
theorem Arranged.inside_of_constructor {s : ClassSite} {methods base moved rest : List Member}
    (h : Arranged plan owner c p methods base moved rest) (suits : plan.Suits s)
    (plain : ∀ a ∈ plan.methods, a.name.startsWith "<" = false) (grown : p.Extends q)
    (small : q.size < 65536) {n : Nat} {m : Member} (at_n : methods[n]? = some m)
    (special : q.utf8 m.name = .ok "<init>") : n < c.methods.length := by
  by_contra outside
  rw [h.whole, List.getElem?_append_right (by rw [h.length]; omega)] at at_n
  rcases List.mem_append.1 (List.mem_of_getElem? at_n) with mem | mem
  · exact moves_special h.moved (fun i planned => (suits.kept i planned).1) grown small mem special
  · rcases h.rest m mem with initializer | ⟨a, planned, added⟩
    · rw [(initializer.name.mono grown).utf8 small.le] at special
      simp at special
    · rw [(added.name.mono grown).utf8 small.le] at special
      have ordinary := plain a planned
      rw [Except.ok.inj special] at ordinary
      exact absurd ordinary (by decide +kernel)

/-- No constructor is dropped or added. -/
theorem Arranged.isConstructor_iff {s : ClassSite} {methods base moved rest : List Member}
    (h : Arranged plan owner c p methods base moved rest) (suits : plan.Suits s)
    (plain : ∀ a ∈ plan.methods, a.name.startsWith "<" = false) (decoded : c.Decoded options)
    (start : c.pool.Extends p) (grown : p.Extends q) (small : q.size < 65536) (n : Nat) :
    (∃ m, c.methods[n]? = some m ∧ c.IsConstructor m) ↔
      ∃ m', methods[n]? = some m' ∧ q.utf8 m'.name = .ok "<init>" := by
  have place {m : Member} (at_n : c.methods[n]? = some m) :
      ∃ m', methods[n]? = some m' ∧ m'.name = m.name := by
    obtain ⟨m', at_base, name, -⟩ := h.kept n m at_n
    rw [h.whole, List.getElem?_append_left (List.getElem?_eq_some_iff.1 at_base).1]
    exact ⟨m', at_base, name⟩
  constructor
  case mp =>
    rintro ⟨m, at_n, special⟩
    obtain ⟨m', at_n', name⟩ := place at_n
    exact ⟨m', at_n', name ▸ Pool.utf8_mono (start.trans grown) special⟩
  case mpr =>
    rintro ⟨m', at_n', special⟩
    have inside := h.inside_of_constructor suits plain grown small at_n' special
    have at_n := List.getElem?_eq_getElem inside
    obtain ⟨m'', at_n'', name⟩ := place at_n
    cases at_n'.symm.trans at_n''
    obtain ⟨⟨text, named⟩, -⟩ :=
      decoded.names _ (List.mem_append_right _ (List.mem_of_getElem? at_n))
    rw [name, Pool.utf8_mono (start.trans grown) named] at special
    cases special
    exact ⟨_, at_n, named⟩

end Class

/-! ## Woven images -/

namespace Plan

variable {plan : Plan} {composition : Composition σ} {weaving : Options} {l l' : Ledger σ}
  {image : Bytes} {decoding : Nat} {images : WovenImages} {c c' : ClassFile}

/-- Weaving assigns the declared first values in the constructors of a class. -/
theorem assigned_of_weave (planned : ofComposition weaving composition l = .ok plan l')
    (sites : (composition.methods.map (·.1)).Sublist composition.site.methods)
    (lists : composition.site.Lists c) (decoded : c.Decoded options)
    (woven : plan.weave composition.site.name c = .ok () c') (grown : c'.pool.Extends q)
    (small : q.size < 65536) :
    Assigned composition.site.name composition.firstValues c { c' with pool := q } := by
  have suits := suits_of_ofComposition planned sites
  obtain ⟨given, -, registers⟩ := registers_of_ofComposition planned
  obtain ⟨keeps, -, arranged, -⟩ := weave_eq_ok woven suits lists decoded
  have few := Nat.lt_of_le_of_lt grown.size_le small
  obtain ⟨base, moved, rest, arranged⟩ := arranged few
  have ordinary : ∀ i ∈ plan.intercepts, ∃ m, c.methods[i.site.index.toNat]? = some m ∧
      Ordinary c.pool m := by
    intro i mem
    obtain ⟨m, found, named⟩ := suits.inside lists decoded.few mem
    exact ⟨m, found, ordinary_of_holds (Pool.holds_of_utf8 named) (suits.method i mem)⟩
  have start := keeps.pool.keeps.trans grown
  refine ⟨start, fun n m at_n => arranged.isNamed decoded start at_n, ?_⟩
  intro n m m' at_n at_n' special s splits
  obtain ⟨m'', at_n'', made⟩ :=
    initializeIn_of_weave woven decoded.readable ordinary few at_n special
  cases at_n'.symm.trans at_n''
  rw [Composition.firstValues, ← firstValues_of_follows registers.follows]
  rcases made with ⟨none, rfl⟩ | ⟨nonempty, p, p', before, made, after⟩
  · rw [none]
    split
    · rfl
    · exact ⟨[], splits.mono start, makes_nil q⟩
  · exact splits_of_initializeIn made needsCode_of_pending nonempty instances_of_pending
      (Pool.utf8_mono before.keeps special) (splits.mono before.keeps)
      (before.sound decoded.readable.pool)
      ((decoded.readable.methods m (List.mem_of_getElem? at_n)).mono before.keeps)
      (after.trans grown) small

/-- The fields that are added to the objects of a class get their first values once for each object,
in the order of their injections, directly behind the call of the superclass's constructor. -/
theorem initializes_once (planned : ofComposition weaving composition l = .ok plan l')
    (sites : (composition.methods.map (·.1)).Sublist composition.site.methods)
    (site : ClassSite.ofBytes options decoding image = .ok composition.site)
    (decoded : ClassFile.ofBytes options image = .ok c)
    (plain : c.PlainConstructors composition.site.name)
    (applied : plan.apply composition.site = .ok images) :
    ∃ w, ClassFile.ofBytes options images.primary = .ok w ∧
      InitializesOnce composition.site.name composition.firstValues c w := by
  obtain ⟨c₀, c', q, decoded', lists, woven, grown, small, read⟩ := woven_of_apply site site applied
  cases decoded.symm.trans decoded'
  have whole := ClassFile.decoded_of_ofBytes decoded
  have suits := suits_of_ofComposition planned sites
  obtain ⟨given, -, registers⟩ := registers_of_ofComposition planned
  have assigned := assigned_of_weave planned sites lists whole woven grown small
  obtain ⟨keeps, -, arranged, -⟩ := weave_eq_ok woven suits lists whole
  obtain ⟨base, moved, rest, arranged⟩ := arranged (Nat.lt_of_le_of_lt grown.size_le small)
  refine ⟨_, read, ?_, ?_, fun n m m' => assigned.runs plain,
    fun n m m' at_n at_n' special m₁ => assigned.delegating at_n at_n' special⟩
  · rw [Composition.firstValues, ← firstValues_of_follows registers.follows]
    exact nodup_firstValues (registers.names.apart.filter _)
  · exact arranged.isConstructor_iff suits registers.plain whole keeps.pool.keeps grown small

end Plan

/-! ### A class with two constructors -/

/-- The image of a class `A`. One of its constructors calls only that of `Object`, and the other one
only the first. The pool has the constants of a field `n`. -/
def delegatingImage : Bytes :=
  [0xCA, 0xFE, 0xBA, 0xBE, 0, 0, 0, 52, 0, 16,
   1, 0, 1, 65, 7, 0, 1,
   1, 0, 16, 106, 97, 118, 97, 47, 108, 97, 110, 103, 47, 79, 98, 106, 101, 99, 116, 7, 0, 3,
   1, 0, 6, 60, 105, 110, 105, 116, 62, 1, 0, 3, 40, 41, 86, 1, 0, 4, 67, 111, 100, 101,
   12, 0, 5, 0, 6, 10, 0, 4, 0, 8, 1, 0, 4, 40, 73, 41, 86, 10, 0, 2, 0, 8,
   1, 0, 1, 110, 1, 0, 1, 73, 12, 0, 12, 0, 13, 9, 0, 2, 0, 14,
   0, 33, 0, 2, 0, 4, 0, 0, 0, 0, 0, 2,
   0, 1, 0, 5, 0, 6, 0, 1, 0, 7, 0, 0, 0, 17, 0, 1, 0, 1, 0, 0, 0, 5, 42, 183, 0, 9, 177,
   0, 0, 0, 0,
   0, 1, 0, 5, 0, 10, 0, 1, 0, 7, 0, 0, 0, 17, 0, 1, 0, 2, 0, 0, 0, 5, 42, 183, 0, 11, 177,
   0, 0, 0, 0,
   0, 0]

def delegatingSite : ClassSite := (ClassSite.ofBytes {} 0 delegatingImage).toOption.getD default

theorem ofBytes_delegatingImage : ClassSite.ofBytes {} 0 delegatingImage = .ok delegatingSite :=
  except_eq_ok_getD (by decide +kernel)

/-- A field `n` is asked for that starts at five. -/
def startingComposition : Composition Unit where
  site := delegatingSite
  additions := [.addField ⟨.accPrivate, "n", .primitive .int, .constant (.int 5)⟩]

def startingPlan : Plan where
  site := delegatingSite
  options := {}
  fields := [⟨.accPrivate, "n", .primitive .int, .store (.int 5)⟩]
  injections := 1

/-- Code that only calls a constructor. -/
def callingCode (index locals : UInt16) : CodeAttribute where
  maxStack := 1
  maxLocals := locals
  code := 0x2A :: 0xB7 :: Bytes.ofU16 index ++ [0xB1]
  exceptions := []
  attributes := []

/-- The instructions of the code. -/
def callingInstructions (index : UInt16) : List Instruction :=
  [⟨.aload0, .none⟩, ⟨.invokespecial, .constant index⟩, ⟨.voidReturn, .none⟩]

/-- They are split at the call, of a constructor without parameters. -/
def callingSplit (index : UInt16) (owner : ClassName) : Split where
  before := [⟨.aload0, .none⟩]
  call := ⟨.invokespecial, .constant index⟩
  target := ⟨owner, "<init>", "()V", false⟩
  after := [⟨.voidReturn, .none⟩]

def superConstructor : Member := ⟨.accPublic, 5, 6, [⟨7, .code (callingCode 9 1)⟩]⟩

def ownConstructor : Member := ⟨.accPublic, 5, 10, [⟨7, .code (callingCode 11 2)⟩]⟩

/-- The code that sets the field to five. -/
def startingCode : List Instruction :=
  [⟨.aload0, .none⟩, ⟨⟨8, by decide⟩, .none⟩, ⟨.putfield, .constant 15⟩]

/-- The first constructor, with that code behind its call. -/
def startingConstructor : Member where
  access := .accPublic
  name := 5
  descriptor := 6
  attributes := [⟨7, .code ⟨2, 1,
    [0x2A, 0xB7, 0, 9, 0x2A, 8, 0xB5, 0, 15, 0, 0, 0, 0xB1], [], []⟩⟩]

section Starting

set_option maxRecDepth 4000

theorem ofComposition_starting : ∃ ledger,
    Plan.ofComposition {} startingComposition ⟨⟨0, 0, ∅⟩, 1⟩ = .ok startingPlan ledger := ⟨_, rfl⟩

theorem methods_delegating :
    delegatingSite.classFile.methods = [superConstructor, ownConstructor] := rfl

/-! The constructors are plain. -/

section Calling

variable {m : Member} {index locals : UInt16} {target : ClassName}
  (read : Located.ofBytes (callingCode index locals).code = .ok [⟨0, ⟨.aload0, .none⟩⟩,
    ⟨1, ⟨.invokespecial, .constant index⟩⟩, ⟨4, ⟨.voidReturn, .none⟩⟩])
  (inside : Body.constantInRange delegatingSite.pool ⟨.invokespecial, .constant index⟩ = true)

include read inside

theorem ofCode_calling : Body.ofCode (callingCode index locals) delegatingSite.pool =
    .ok { maxStack := 1, maxLocals := locals, code := (callingInstructions index).map .op } :=
  Body.ofCode_of_bare (c := callingCode index locals) read
    (List.forall_mem_cons.2 ⟨rfl, List.forall_mem_cons.2 ⟨rfl, List.forall_mem_singleton.2 rfl⟩⟩)
    (List.forall_mem_cons.2 ⟨rfl, List.forall_mem_cons.2 ⟨inside, List.forall_mem_singleton.2 rfl⟩⟩)
    rfl rfl

theorem splits_calling (coded : m.code? = some (callingCode index locals))
    (calls : specialCall? delegatingSite.pool ⟨.invokespecial, .constant index⟩ =
      .ok (some ⟨target, "<init>", "()V", false⟩)) :
    m.Splits delegatingSite.pool (callingSplit index target) where
  code := ⟨_, Member.body?_eq_some coded (ofCode_calling read inside), rfl⟩
  straight := List.forall_mem_cons.2 ⟨rfl, List.forall_mem_cons.2 ⟨rfl,
    List.forall_mem_singleton.2 rfl⟩⟩
  balanced := .plain ⟨by decide, ⟨none, rfl, nofun⟩, by decide⟩ .nil
  calls := ⟨calls, rfl⟩

end Calling

theorem splits_super : superConstructor.Splits delegatingSite.pool
    (callingSplit 9 ⟨"java/lang/Object"⟩) := splits_calling rfl (by decide +kernel) rfl rfl

theorem splits_own : ownConstructor.Splits delegatingSite.pool (callingSplit 11 ⟨"A"⟩) :=
  splits_calling rfl (by decide +kernel) rfl rfl

theorem delegatesTo_delegating {m m' : Member}
    (h : delegatingSite.classFile.DelegatesTo ⟨"A"⟩ m m') :
    m = ownConstructor ∧ m' = superConstructor := by
  obtain ⟨mem, s, splits, own, found⟩ := h
  rw [methods_delegating] at mem
  rcases List.mem_pair.1 mem with rfl | rfl
  · obtain rfl := splits.unique splits_super
    exact absurd own (by decide)
  · obtain rfl := splits.unique splits_own
    exact ⟨rfl, (Option.some.inj found).symm⟩

theorem plainConstructors_delegating : delegatingSite.classFile.PlainConstructors ⟨"A"⟩ := by
  refine ⟨?_, ?_, fun m cycle => ?_⟩
  · rw [methods_delegating]
    exact List.forall_mem_cons.2 ⟨fun _ => ⟨_, splits_super⟩,
      List.forall_mem_singleton.2 fun _ => ⟨_, splits_own⟩⟩
  · rw [methods_delegating]
    refine List.forall_mem_cons.2 ⟨fun _ s splits own => ?_,
      List.forall_mem_singleton.2 fun _ s splits _ => ?_⟩
    · obtain rfl := splits.unique splits_super
      exact absurd own (by decide)
    · obtain rfl := splits.unique splits_own
      exact ⟨superConstructor, rfl⟩
  · obtain ⟨m₁, start, -⟩ := Relation.TransGen.head'_iff.1 cycle
    obtain ⟨m₂, -, last⟩ := Relation.TransGen.tail'_iff.1 cycle
    have same := (delegatesTo_delegating start).1.symm.trans (delegatesTo_delegating last).2
    cases congrArg Member.descriptor same

/-! The plan is applied. -/

theorem named_starting : Member.named .accPrivate "n" "I" delegatingSite.pool =
    (⟨.accPrivate, 12, 13, []⟩, delegatingSite.pool) := by
  have sound := ClassSite.sound_of_ofBytes ofBytes_delegatingImage
  have name : Pool.addUtf8 "n" delegatingSite.pool = (12, delegatingSite.pool) :=
    sound.intern_of_known (by decide +kernel)
  have descriptor : Pool.addUtf8 "I" delegatingSite.pool = (13, delegatingSite.pool) :=
    sound.intern_of_known (by decide +kernel)
  exact (state_bind name).trans ((state_bind descriptor).trans rfl)

theorem addFieldRef_starting :
    Pool.addFieldRef "A" "n" "I" delegatingSite.pool = (15, delegatingSite.pool) := by
  have sound := ClassSite.sound_of_ofBytes ofBytes_delegatingImage
  have text : Pool.addUtf8 "A" delegatingSite.pool = (1, delegatingSite.pool) :=
    sound.intern_of_known (by decide +kernel)
  have owner : Pool.addClass "A" delegatingSite.pool = (2, delegatingSite.pool) :=
    (state_bind text).trans (sound.intern_of_known (by decide +kernel))
  have name : Pool.addUtf8 "n" delegatingSite.pool = (12, delegatingSite.pool) :=
    sound.intern_of_known (by decide +kernel)
  have descriptor : Pool.addUtf8 "I" delegatingSite.pool = (13, delegatingSite.pool) :=
    sound.intern_of_known (by decide +kernel)
  have typed : Pool.addNameAndType "n" "I" delegatingSite.pool = (14, delegatingSite.pool) :=
    (state_bind name).trans <| (state_bind descriptor).trans <|
      sound.intern_of_known (by decide +kernel)
  exact (state_bind owner).trans <| (state_bind typed).trans <|
    sound.intern_of_known (by decide +kernel)

/-- The builder that has put the object and five on the stack. -/
def startingBuilder : Builder where
  pool := delegatingSite.pool
  written := [.op ⟨⟨8, by decide⟩, .none⟩, .op ⟨.aload0, .none⟩]
  depth := 2
  maxDepth := 2
  nextLocal := 1

theorem build_starting : Body.build 1 (assignAll ⟨"A"⟩ startingPlan.fields) delegatingSite.pool =
    .ok { maxStack := 2, maxLocals := 1, code := startingCode.map .op } delegatingSite.pool := by
  have added : Build.onPool (Pool.addFieldRef "A" "n" "I") startingBuilder =
      .ok 15 startingBuilder := by
    rw [Build.onPool, show startingBuilder.pool = delegatingSite.pool from rfl,
      addFieldRef_starting]
    rfl
  have ran : assignAll ⟨"A"⟩ startingPlan.fields (.start delegatingSite.pool 1) = .ok () _ :=
    step_bind_eq_ok.2 ⟨(), _, step_bind_eq_ok.2 ⟨(), _, rfl, step_bind_eq_ok.2 ⟨(),
      startingBuilder, rfl, step_bind_eq_ok.2 ⟨15, _, added, rfl⟩⟩⟩, rfl⟩
  rw [Body.build, ran]
  rfl

theorem initializeIn_super : initializeIn ⟨"A"⟩ startingPlan.fields superConstructor
    delegatingSite.pool = .ok startingConstructor delegatingSite.pool := by
  have read : Body.ofCode (callingCode 9 1) delegatingSite.pool = .ok _ :=
    ofCode_calling rfl (by decide +kernel)
  have assigned : assignment ⟨"A"⟩ startingPlan.fields 1 delegatingSite.pool = .ok
      ⟨{ maxStack := 2, maxLocals := 1, code := (padded startingCode 3).map .op }, 8⟩
      delegatingSite.pool :=
    step_bind_eq_ok.2 ⟨_, _, build_starting, rfl⟩
  exact (initializeIn_of_superCall ⟨rfl, rfl, read, rfl⟩).trans
    (step_bind_eq_ok.2 ⟨_, _, step_bind_eq_ok.2 ⟨_, _, assigned, rfl⟩, rfl⟩)

theorem initializeIn_own : initializeIn ⟨"A"⟩ startingPlan.fields ownConstructor
    delegatingSite.pool = .ok ownConstructor delegatingSite.pool :=
  initializeIn_of_delegates rfl ⟨_, _, rfl, ofCode_calling rfl (by decide +kernel), rfl⟩

theorem weave_starting : startingPlan.weave ⟨"A"⟩ delegatingSite.classFile = .ok ()
    { delegatingSite.classFile with
      fields := delegatingSite.classFile.fields ++ [⟨.accPrivate, 12, 13, []⟩]
      methods := [startingConstructor, ownConstructor] } := by
  generalize same : delegatingSite.classFile = c
  have pool : c.pool = delegatingSite.pool := same ▸ rfl
  have methods : c.methods = [superConstructor, ownConstructor] := same ▸ methods_delegating
  have members : (⟨.accPrivate, "n", .primitive .int, .store (.int 5)⟩ : PlannedField).members
      c.pool = .ok [⟨.accPrivate, 12, 13, []⟩] c.pool :=
    step_bind_eq_ok.2 ⟨_, _, edit_change_eq_ok.2 (pool ▸ named_starting), rfl⟩
  have each : c.methods.mapM (initializeIn ⟨"A"⟩ startingPlan.fields) c.pool =
      .ok [startingConstructor, ownConstructor] c.pool := by
    rw [methods, pool]
    exact step_bind_eq_ok.2 ⟨_, _, initializeIn_super,
      step_bind_eq_ok.2 ⟨_, _, initializeIn_own, rfl⟩⟩
  have declared : declareFields startingPlan.fields c =
      .ok () { c with fields := c.fields ++ [⟨.accPrivate, 12, 13, []⟩] } :=
    step_bind_eq_ok.2 ⟨(), _,
      step_bind_eq_ok.2 ⟨_, _, edit_zoom_eq_ok.2 ⟨_, members, rfl⟩, rfl⟩, rfl⟩
  have initialized : initializeInstances ⟨"A"⟩ startingPlan.fields
      { c with fields := c.fields ++ [⟨.accPrivate, 12, 13, []⟩] } = .ok () { c with
        fields := c.fields ++ [⟨.accPrivate, 12, 13, []⟩]
        methods := [startingConstructor, ownConstructor] } :=
    step_bind_eq_ok.2 ⟨_, _, rfl,
      step_bind_eq_ok.2 ⟨_, _, edit_zoom_eq_ok.2 ⟨_, each, rfl⟩, rfl⟩⟩
  exact step_bind_eq_ok.2 ⟨(), _, rfl, step_bind_eq_ok.2 ⟨(), _, declared,
    step_bind_eq_ok.2 ⟨(), _, initialized, rfl⟩⟩⟩

theorem apply_starting : ∃ images, startingPlan.apply delegatingSite = .ok images := by
  let woven : ClassFile := { delegatingSite.classFile with
    fields := delegatingSite.classFile.fields ++ [⟨.accPrivate, 12, 13, []⟩]
    methods := [startingConstructor, ownConstructor] }
  have weave : (startingPlan.weave delegatingSite.name).run delegatingSite.classFile =
      .ok ((), woven) := edit_run_eq_ok.2 weave_starting
  obtain ⟨primary, written⟩ := except_exists_ok
    (show woven.toBytes.toBool = true by decide +kernel)
  refine ⟨⟨primary, []⟩, ?_⟩
  unfold Plan.apply
  rw [if_neg (by simp [startingPlan])]
  exact except_bind_eq_ok.2 ⟨_, weave, except_bind_eq_ok.2 ⟨_, written, rfl⟩⟩

/-- The field starts at five in each object of the class, whichever constructor is called. -/
theorem Plan.initializes_once_starting : ∃ plan ledger images c w,
    Plan.ofComposition {} startingComposition ⟨⟨0, 0, ∅⟩, 1⟩ = .ok plan ledger ∧
      (startingComposition.methods.map (·.1)).Sublist startingComposition.site.methods ∧
      ClassSite.ofBytes {} 0 delegatingImage = .ok startingComposition.site ∧
      ClassFile.ofBytes {} delegatingImage = .ok c ∧
      c.PlainConstructors startingComposition.site.name ∧
      plan.apply startingComposition.site = .ok images ∧
      ClassFile.ofBytes {} images.primary = .ok w ∧
      InitializesOnce ⟨"A"⟩ [⟨.this, ⟨"A", "n", "I"⟩, .literal (.int 5)⟩] c w := by
  obtain ⟨ledger, planned⟩ := ofComposition_starting
  obtain ⟨images, applied⟩ := apply_starting
  obtain ⟨c, decoded, lists⟩ := ClassSite.lists_of_ofBytes ofBytes_delegatingImage
  have plain : c.PlainConstructors startingComposition.site.name :=
    lists.classFile ▸ plainConstructors_delegating
  have none := List.nil_sublist startingComposition.site.methods
  obtain ⟨w, read, once⟩ :=
    initializes_once planned none ofBytes_delegatingImage decoded plain applied
  exact ⟨_, ledger, images, c, w, planned, none, ofBytes_delegatingImage, decoded, plain, applied,
    read, once⟩

end Starting

end Weave

end Weft
