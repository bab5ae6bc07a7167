import Weft.Proofs.Weave.Initialization
import Weft.Proofs.Weave.Interception
import Weft.Weave.Image

/-!
# What the rest of a plan does to a class

Added methods are appended. Of the attributes of the class, only its nest members and its stamp
change.
-/

namespace Weft.Weave

variable {options : DecodeOptions} {p q : Pool} {owner : ClassName} {helpers : List Helper}
  {c c' : ClassFile}

/-! ## Added methods -/

theorem straight_putAccessor (slot : UInt16) (accessor : String × ClassName) :
    (putAccessor owner helpers slot accessor).Straight :=
  (Build.straight_load _ _).bind fun _ => (Build.straight_pushString _).bind fun _ =>
    (straight_makeHelper _ _ _).bind fun _ => (Build.straight_invokeInterface _ _ _).bind
      fun _ => Build.straight_popObject

theorem straight_makeAccessors (slot : UInt16) (accessors : List (String × ClassName)) :
    (makeAccessors owner helpers slot accessors).Straight :=
  (Build.straight_newObject _).bind fun _ => Build.straight_dup.bind fun _ =>
    (Build.straight_invokeSpecial _ _ _).bind fun _ => (Build.straight_store _ _).bind
      fun _ => .forM fun _ => straight_putAccessor slot _

namespace PlannedMethod

theorem writes_code (m : PlannedMethod) : Writes (m.code owner helpers) :=
  .after (Build.straight_allocateLocal _) fun _ => .after (Build.straight_allocateLocal _) fun _ =>
    .after (straight_makeAccessors _ _) fun _ => .after (straight_makeAccessors _ _) fun _ =>
      .after (Build.straight_pushString _) fun _ => .after (straight_loadReceiver _) fun _ =>
        .after (Build.straight_packArguments _ _) fun _ => .after (Build.straight_load _ _)
          fun _ => .after (Build.straight_load _ _) fun _ =>
            .after (Build.straight_invokeStatic _ _ _) fun _ => writes_returnObject _

theorem addsClass (name : ClassName) :
    EditGrows (liftM (Pool.addClass name.internal) : Edit Pool UInt16) :=
  .change (Pool.grows_addClass name.internal)

variable (options) in
/-- The member is the method that is built, with a list of what it throws behind its attributes if
it throws anything. -/
theorem steps_of_member {m : PlannedMethod} {added : Member}
    (h : m.member owner helpers p = .ok added q) :
    ∃ built p₁ listed,
      builtMethod m.access m.name m.descriptor (m.code owner helpers) p = .ok built p₁ ∧
      added = { built with attributes := built.attributes ++ listed } ∧ p₁.GrowsTo q ∧
      (p₁.Sound → ∀ a ∈ listed, a.Readable options q) := by
  obtain ⟨built, p₁, first, h⟩ := step_bind_eq_ok.1 h
  split at h
  · obtain ⟨rfl, rfl⟩ := step_pure_eq_ok.1 h
    exact ⟨built, p₁, [], first, by rw [List.append_nil], .refl _, fun _ => List.forall_mem_nil _⟩
  · obtain ⟨thrown, p₂, named, h⟩ := step_bind_eq_ok.1 h
    obtain ⟨a, p₃, labelled, h⟩ := step_bind_eq_ok.1 h
    obtain ⟨rfl, rfl⟩ := step_pure_eq_ok.1 h
    have grown₂ := EditGrows.mapM (fun name => addsClass name) _ _ _ named
    have labelled := edit_change_eq_ok.1 labelled
    have grown₃ := (Attribute.grows_named _ _).made labelled
    exact ⟨built, p₁, [a], first, rfl, grown₂.trans grown₃, fun sound => List.forall_mem_singleton.2
      (Attribute.readable_named labelled (grown₂.sound sound) rfl rfl trivial)⟩

variable (options) in
theorem member_eq_ok {m : PlannedMethod} {added : Member}
    (h : m.member owner helpers p = .ok added q) :
    Emitted options p q m.name m.descriptor.descriptor added := by
  obtain ⟨built, p₁, listed, first, rfl, later, more⟩ := steps_of_member options h
  have emitted := builtMethod_eq_ok options m.writes_code first
  refine ⟨emitted.grown.trans later, fun sound => (emitted.named sound).mono later.keeps,
    fun sound => (emitted.typed sound).mono later.keeps, fun sound => ?_⟩
  have readable := (emitted.readable sound).mono later.keeps
  refine ⟨readable.name, readable.descriptor, fun a mem => ?_⟩
  rcases List.mem_append.1 mem with mem | mem
  · exact readable.attributes a mem
  · exact more (emitted.grown.sound sound) a mem

/-- The method has the name and the descriptor that are planned. -/
structure IsAdded (m : PlannedMethod) (p : Pool) (added : Member) : Prop where
  name : p.Holds added.name (.utf8 m.name)
  descriptor : p.Holds added.descriptor (.utf8 m.descriptor.descriptor)

variable (options) in
theorem pushAll_eq_ok {ms : List PlannedMethod}
    (h : ms.forM (fun m => pushMethod (m.member owner helpers)) c = .ok ⟨⟩ c')
    (sound : c.pool.Sound) :
    Keeps options c c' ∧ c'.fields = c.fields ∧ c'.attributes = c.attributes ∧
      ∃ added, c'.methods = c.methods ++ added ∧
        List.Forall₂ (fun m x => m.IsAdded c'.pool x) ms added := by
  induction ms generalizing c with
  | nil =>
    cases h
    exact ⟨.refl _, rfl, rfl, [], (List.append_nil _).symm, .nil⟩
  | cons m ms ih =>
    obtain ⟨⟨⟩, c₁, first, h⟩ := step_bind_eq_ok.1 h
    obtain ⟨keeps, fields, attributes, x, methods, emitted⟩ :=
      pushMethod_eq_ok options first fun _ _ made => member_eq_ok options made
    obtain ⟨keeps', fields', attributes', added, methods', all⟩ := ih h (keeps.pool.sound sound)
    refine ⟨keeps.trans keeps', fields'.trans fields, attributes'.trans attributes, x :: added,
      by rw [methods', methods, List.append_assoc, List.singleton_append], .cons ⟨?_, ?_⟩ all⟩
    · exact (emitted.named sound).mono keeps'.pool.keeps
    · exact (emitted.typed sound).mono keeps'.pool.keeps

end PlannedMethod

/-! ## Attributes of the class -/

/-- An edit of the attributes on a growing pool that leaves readable ones. -/
theorem Keeps.of_attributes {attributes : List Attribute} (pool : c.pool.GrowsTo q)
    (readable : c.Readable options → ∀ a ∈ attributes, a.Readable options q) :
    Keeps options c { c with pool := q, attributes } :=
  .of_members pool (fun h m mem => (h.fields m mem).mono pool.keeps)
    (fun h m mem => (h.methods m mem).mono pool.keeps) readable

/-- Nothing of the attribute changed but the members or the mark that it lists. -/
def IsMarked (p : Pool) (a a' : Attribute) : Prop :=
  a' = a ∨ (a'.name = a.name ∧
    ((∃ old new, a.body = .nestMembers old ∧ a'.body = .nestMembers (old ++ new)) ∨
      p.Holds a.name (.utf8 "classweave.Woven")))

theorem IsMarked.trans {a a' a'' : Attribute} (h : IsMarked p a a') (h' : IsMarked q a' a'')
    (grown : p.Extends q) : IsMarked q a a'' := by
  rcases h with rfl | ⟨same, changed⟩
  · exact h'
  rcases h' with rfl | ⟨same', changed'⟩
  · exact .inr ⟨same, changed.imp_right fun named => named.mono grown⟩
  refine .inr ⟨same'.trans same, ?_⟩
  rcases changed' with ⟨old, new, listed, listed'⟩ | named
  · rcases changed with ⟨first, second, before, after⟩ | named
    · cases after.symm.trans listed
      exact .inl ⟨first, second ++ new, before, by rw [listed', List.append_assoc]⟩
    · exact .inr (named.mono grown)
  · exact .inr (same ▸ named)

/-- What marking a class changes. -/
structure Marked (options : DecodeOptions) (c c' : ClassFile) : Prop where
  keeps : Keeps options c c'
  fields : c'.fields = c.fields
  methods : c'.methods = c.methods
  attributes : c.pool.Sound → ∃ base added, c'.attributes = base ++ added ∧
    List.Forall₂ (IsMarked c'.pool) c.attributes base

namespace Marked

/-- No attribute changes. -/
theorem of_pool (grown : c.pool.GrowsTo q) : Marked options c { c with pool := q } where
  keeps := .of_attributes grown fun h a mem => (h.attributes a mem).mono grown.keeps
  fields := rfl
  methods := rfl
  attributes _ := ⟨c.attributes, [], (List.append_nil _).symm,
    List.forall₂_same.2 fun _ _ => .inl rfl⟩

theorem trans {c'' : ClassFile} (h : Marked options c c') (h' : Marked options c' c'') :
    Marked options c c'' where
  keeps := h.keeps.trans h'.keeps
  fields := h'.fields.trans h.fields
  methods := h'.methods.trans h.methods
  attributes sound := by
    obtain ⟨base, added, same, changes⟩ := h.attributes sound
    obtain ⟨base', added', same', changes'⟩ := h'.attributes (h.keeps.pool.sound sound)
    rw [same] at changes'
    obtain ⟨bs, cs, rfl, kept, -⟩ := forall₂_append_left changes'
    exact ⟨bs, cs ++ added', by rw [same', List.append_assoc],
      forall₂_trans changes kept fun _ _ _ first second => first.trans second h'.keeps.pool.keeps⟩

end Marked

theorem readable_nestMembers {name : UInt16} {members : List UInt16}
    (named : p.Holds name (.utf8 "NestMembers")) :
    Attribute.Readable options p ⟨name, .nestMembers members⟩ :=
  Attribute.readable_plain named rfl rfl trivial

theorem addNestMembers_marked (members : List UInt16) (c : ClassFile) :
    Marked options c (addNestMembers members c) := by
  unfold addNestMembers
  dsimp only
  split
  · refine ⟨.of_attributes (.refl _) fun h a' mem => ?_, rfl, rfl,
      fun _ => ⟨_, [], (List.append_nil _).symm, ?_⟩⟩
    · rcases updateFirst_mem mem with old | ⟨a, old, extended, rfl⟩
      · exact h.attributes a' old
      · have named := (h.attributes a old).named
        obtain ⟨name, body⟩ := a
        cases body <;> try cases extended
        exact readable_nestMembers (named "NestMembers" rfl)
    · refine (forall₂_updateFirst c.attributes).imp fun a a' change => change.imp_right ?_
      rintro ⟨extended, rfl⟩
      obtain ⟨name, body⟩ := a
      cases body <;> try cases extended
      exact ⟨rfl, .inl ⟨_, members, rfl, rfl⟩⟩
  · have grown := Attribute.grows_named "NestMembers" (.nestMembers members) c.pool
    refine ⟨.of_attributes grown fun h a mem => ?_, rfl, rfl,
      fun _ => ⟨c.attributes, [_], rfl, List.forall₂_same.2 fun _ _ => .inl rfl⟩⟩
    rcases List.mem_append.1 mem with mem | mem
    · exact (h.attributes a mem).mono grown.keeps
    · rw [List.mem_singleton.1 mem]
      exact readable_nestMembers (Pool.holds_addUtf8 h.pool "NestMembers")

theorem readable_woven {name : UInt16} {stamp : WovenStamp}
    (named : p.Holds name (.utf8 "classweave.Woven")) :
    Attribute.Readable options p ⟨name, .woven stamp⟩ :=
  Attribute.readable_plain named rfl rfl trivial

theorem setStamp_marked (stamp : WovenStamp) (c : ClassFile) :
    Marked options c (c.setAttribute "classweave.Woven" (.woven stamp)) := by
  have grown := Pool.grows_addUtf8 "classweave.Woven" c.pool
  unfold ClassFile.setAttribute
  generalize interned : Pool.addUtf8 "classweave.Woven" c.pool = added at grown
  obtain ⟨index, q⟩ := added
  have named (sound : c.pool.Sound) : q.Holds index (.utf8 "classweave.Woven") := by
    have held := Pool.holds_addUtf8 sound "classweave.Woven"
    rwa [interned] at held
  dsimp only
  split
  · refine ⟨.of_attributes grown fun h a' mem => ?_, rfl, rfl,
      fun sound => ⟨_, [], (List.append_nil _).symm, ?_⟩⟩
    · rcases updateFirst_mem mem with old | ⟨a, old, same, rfl⟩
      · exact (h.attributes a' old).mono grown.keeps
      · exact readable_woven (beq_iff_eq.1 same ▸ named h.pool)
    · refine (forall₂_updateFirst c.attributes).imp fun a a' change => change.imp_right ?_
      rintro ⟨same, rfl⟩
      exact ⟨rfl, .inr (beq_iff_eq.1 same ▸ named sound)⟩
  · refine ⟨.of_attributes grown fun h a mem => ?_, rfl, rfl,
      fun _ => ⟨c.attributes, [_], rfl, List.forall₂_same.2 fun _ _ => .inl rfl⟩⟩
    rcases List.mem_append.1 mem with mem | mem
    · exact (h.attributes a mem).mono grown.keeps
    · rw [List.mem_singleton.1 mem]
      exact readable_woven (named h.pool)

/-- The classes of helpers are added to the pool under their names, and nothing else changes. -/
theorem addClasses_eq_ok {hs : List Helper} {members : List UInt16}
    (h : hs.mapM (fun h => (liftM (ClassFile.onPool (Pool.addClass h.name.internal)) :
      Edit ClassFile UInt16)) c = .ok members c') :
    ∃ q, c' = { c with pool := q } ∧ c.pool.GrowsTo q ∧ (c.pool.Sound →
      List.Forall₂ (fun h member => q.HoldsClass member h.name.internal) hs members) := by
  induction hs generalizing c members with
  | nil =>
    obtain ⟨rfl, rfl⟩ := step_pure_eq_ok.1 h
    exact ⟨_, rfl, .refl _, fun _ => .nil⟩
  | cons helper hs ih =>
    obtain ⟨index, rest, c₁, first, second, rfl⟩ := step_mapM_cons_eq_ok.1 h
    have grown := Pool.grows_addClass helper.name.internal c.pool
    have held (sound : c.pool.Sound) := Pool.holds_addClass sound helper.name.internal
    cases edit_change_eq_ok.1 first
    obtain ⟨q, rfl, grown', held'⟩ := ih second
    exact ⟨q, rfl, grown.trans grown', fun sound =>
      .cons ((held sound).mono grown'.keeps) (held' (grown.sound sound))⟩

namespace Plan

variable {plan : Plan}

/-- Helpers that do not join the nest are not listed. Those that join it are added to the pool and
listed as its members. -/
theorem nestHelpers_eq_ok (h : plan.nestHelpers c = .ok () c') :
    plan.nests c = false ∧ c' = c ∨ plan.nests c = true ∧ ∃ q members, c.pool.GrowsTo q ∧
      (c.pool.Sound → List.Forall₂ (fun h member => q.HoldsClass member h.name.internal)
        plan.helpers members) ∧ c' = addNestMembers members { c with pool := q } := by
  unfold nestHelpers at h
  rw [step_get_bind] at h
  split at h
  · rename_i joined
    obtain ⟨members, c₁, listed, h⟩ := step_bind_eq_ok.1 h
    obtain ⟨q, rfl, grown, held⟩ := addClasses_eq_ok listed
    cases h
    exact .inr ⟨joined, q, members, grown, held, rfl⟩
  · rename_i apart
    cases h
    exact .inl ⟨Bool.eq_false_iff.2 apart, rfl⟩

/-- A class is stamped with the name of the injector, if there is one. -/
theorem stampClass_eq_ok (h : plan.stampClass c = .ok () c') :
    plan.options.stamp = none ∧ c' = c ∨ ∃ name, plan.options.stamp = some name ∧
      c' = ({ c with pool := (Pool.addUtf8 name c.pool).2 } : ClassFile).setAttribute
        "classweave.Woven" (.woven ⟨(Pool.addUtf8 name c.pool).1, !plan.isEmpty⟩) := by
  unfold stampClass at h
  cases stamp : plan.options.stamp with
  | none =>
    rw [stamp] at h
    cases h
    exact .inl ⟨rfl, rfl⟩
  | some name =>
    rw [stamp] at h
    obtain ⟨index, c₁, named, h⟩ := step_bind_eq_ok.1 h
    cases edit_change_eq_ok.1 named
    cases h
    exact .inr ⟨name, rfl, rfl⟩

variable (options) in
theorem nestHelpers_marked (h : plan.nestHelpers c = .ok () c') : Marked options c c' := by
  rcases nestHelpers_eq_ok h with ⟨-, rfl⟩ | ⟨-, q, members, grown, -, rfl⟩
  · exact .of_pool (.refl _)
  · exact (Marked.of_pool grown).trans (addNestMembers_marked members _)

variable (options) in
theorem stampClass_marked (h : plan.stampClass c = .ok () c') : Marked options c c' := by
  rcases stampClass_eq_ok h with ⟨-, rfl⟩ | ⟨name, -, rfl⟩
  · exact .of_pool (.refl _)
  · exact (Marked.of_pool (Pool.grows_addUtf8 name c.pool)).trans (setStamp_marked _ _)

/-! ## The steps of weaving -/

/-- The classes that weaving comes by, from `c` to `c'`. Each step keeps what it is not meant to
change; the last two mark the class only, and the five before them leave its attributes alone. -/
structure Stages (options : DecodeOptions) (plan : Plan) (owner : ClassName)
    (c c₁ c₂ c₃ c₄ c₅ c₆ c' : ClassFile) : Prop where
  intercepted : plan.intercepts.forM (·.weave owner) c = .ok () c₁
  declared : declareFields plan.fields c₁ = .ok () c₂
  constructed : initializeInstances owner plan.fields c₂ = .ok () c₃
  initialized : initializeStatics owner plan.fields c₃ = .ok () c₄
  added : plan.methods.forM (fun m => pushMethod (m.member owner plan.helpers)) c₄ = .ok () c₅
  nested : plan.nestHelpers c₅ = .ok () c₆
  stamped : plan.stampClass c₆ = .ok () c'
  keeps₁ : Keeps options c c₁
  keeps₂ : Keeps options c₁ c₂
  keeps₃ : Keeps options c₂ c₃
  keeps₄ : Keeps options c₃ c₄
  keeps₅ : Keeps options c₄ c₅
  marked : Marked options c₅ c'
  /-- Fields are declared before the methods of the class are looked at. -/
  methods : c₂.methods = c₁.methods
  attributes : c₅.attributes = c.attributes

variable (options) in
theorem stages_of_weave (h : plan.weave owner c = .ok () c') (sound : c.pool.Sound) :
    ∃ c₁ c₂ c₃ c₄ c₅ c₆, Stages options plan owner c c₁ c₂ c₃ c₄ c₅ c₆ c' := by
  obtain ⟨⟨⟩, c₁, intercepted, h⟩ := step_bind_eq_ok.1 h
  obtain ⟨⟨⟩, c₂, declared, h⟩ := step_bind_eq_ok.1 h
  obtain ⟨⟨⟩, c₃, constructed, h⟩ := step_bind_eq_ok.1 h
  obtain ⟨⟨⟩, c₄, initialized, h⟩ := step_bind_eq_ok.1 h
  obtain ⟨⟨⟩, c₅, added, h⟩ := step_bind_eq_ok.1 h
  obtain ⟨⟨⟩, c₆, nested, stamped⟩ := step_bind_eq_ok.1 h
  obtain ⟨keeps₁, -, attributes₁⟩ := PlannedIntercept.keeps_intercepts options intercepted
  obtain ⟨keeps₂, methods₂, attributes₂, -⟩ := declareFields_eq_ok options declared
  obtain ⟨keeps₃, -, attributes₃, -⟩ := initializeInstances_eq_ok options constructed
  obtain ⟨keeps₄, -, attributes₄, -⟩ := initializeStatics_eq_ok options initialized
  have sound₄ := (((keeps₁.trans keeps₂).trans keeps₃).trans keeps₄).pool.sound sound
  obtain ⟨keeps₅, -, attributes₅, -⟩ := PlannedMethod.pushAll_eq_ok options added sound₄
  exact ⟨c₁, c₂, c₃, c₄, c₅, c₆,
    { intercepted, declared, constructed, initialized, added, nested, stamped
      keeps₁, keeps₂, keeps₃, keeps₄, keeps₅, methods := methods₂
      marked := (nestHelpers_marked options nested).trans (stampClass_marked options stamped)
      attributes := by
        rw [attributes₅, attributes₄, attributes₃, attributes₂, attributes₁] }⟩

namespace Stages

variable {c₁ c₂ c₃ c₄ c₅ c₆ : ClassFile}

theorem keepsTo₃ (h : Stages options plan owner c c₁ c₂ c₃ c₄ c₅ c₆ c') : Keeps options c c₃ :=
  (h.keeps₁.trans h.keeps₂).trans h.keeps₃

theorem keepsTo₄ (h : Stages options plan owner c c₁ c₂ c₃ c₄ c₅ c₆ c') : Keeps options c c₄ :=
  h.keepsTo₃.trans h.keeps₄

theorem keepsFrom₄ (h : Stages options plan owner c c₁ c₂ c₃ c₄ c₅ c₆ c') : Keeps options c₄ c' :=
  h.keeps₅.trans h.marked.keeps

theorem keeps (h : Stages options plan owner c c₁ c₂ c₃ c₄ c₅ c₆ c') : Keeps options c c' :=
  h.keepsTo₄.trans h.keepsFrom₄

/-- What is declared for the fields of the plan is appended, and no field is dropped. -/
theorem fields (h : Stages options plan owner c c₁ c₂ c₃ c₄ c₅ c₆ c') (sound : c.pool.Sound) :
    ∃ groups, c'.fields = c.fields ++ groups.flatten ∧ ∀ r, c'.pool.Extends r → r.size < 65536 →
      List.Forall₂ (PlannedField.IsDeclared r) plan.fields groups := by
  obtain ⟨-, fields₁, -⟩ := PlannedIntercept.keeps_intercepts options h.intercepted
  obtain ⟨-, -, -, groups, fields₂, declared⟩ := declareFields_eq_ok options h.declared
  obtain ⟨-, fields₃, -⟩ := initializeInstances_eq_ok options h.constructed
  obtain ⟨-, fields₄, -⟩ := initializeStatics_eq_ok options h.initialized
  obtain ⟨-, fields₅, -⟩ := PlannedMethod.pushAll_eq_ok options h.added (h.keepsTo₄.pool.sound sound)
  refine ⟨groups, ?_, fun r later => ?_⟩
  · rw [h.marked.fields, fields₅, fields₄, fields₃, fields₂, fields₁]
  · exact declared (h.keeps₁.pool.sound sound) r
      ((h.keeps₃.trans (h.keeps₄.trans h.keepsFrom₄)).pool.keeps.trans later)

end Stages

/-- The images of a plan are those of the woven class and of its helpers. -/
theorem apply_eq_ok {plan : Plan} {s : ClassSite} {images : WovenImages}
    (h : plan.apply s = .ok images) :
    ∃ c, plan.weave s.name s.classFile = .ok () c ∧ c.toBytes = .ok images.primary ∧
      List.Forall₂ (fun helper image => image.1 = helper.name ∧ ∃ made,
        helper.classFile s.name c.majorVersion (plan.nests s.classFile) = .ok made ∧
          made.toBytes = .ok image.2) plan.helpers images.helpers := by
  unfold apply at h
  dsimp only at h
  split at h
  · cases h
  obtain ⟨⟨⟨⟩, c⟩, woven, h⟩ := except_bind_eq_ok.1 h
  obtain ⟨primary, written, h⟩ := except_bind_eq_ok.1 h
  obtain ⟨helpers, made, h⟩ := except_bind_eq_ok.1 h
  cases h
  refine ⟨c, edit_run_eq_ok.1 woven, written, (except_mapM_eq_ok.1 made).imp fun helper image h => ?_⟩
  obtain ⟨class_file, emitted, h⟩ := except_bind_eq_ok.1 h
  obtain ⟨bytes, written, h⟩ := except_bind_eq_ok.1 h
  cases h
  exact ⟨rfl, class_file, emitted, written⟩

end Plan

end Weft.Weave
