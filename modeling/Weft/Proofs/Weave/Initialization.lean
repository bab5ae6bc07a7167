import Weft.Proofs.Weave.Emission
import Weft.Weave.Initializer

/-!
# What added fields do to a class

The fields that are planned are appended, each behind its holder. Code that assigns them is inserted
into constructors that do not delegate and into the class initializer; a constructor delegates by
the constants that the class had from the start.
-/

namespace Weft

variable {options : DecodeOptions} {p q : Pool} {owner : ClassName}

/-! ## Literals -/

theorem Pool.literal_addLiteral (sound : p.Sound) (value : Literal) {r : Pool}
    (grown : (addLiteral value p).2.Extends r) (small : r.size < 65536) :
    r.literal (addLiteral value p).1 = .ok value :=
  ((places_addLiteral value).placed p sound.known r grown).literal small.le

theorem Member.isNamed_iff {m : Member} {name descriptor : String} :
    m.isNamed p name descriptor = true ↔
      p.utf8 m.name = .ok name ∧ p.utf8 m.descriptor = .ok descriptor := by
  rw [isNamed, Bool.and_eq_true, beq_iff_eq, beq_iff_eq, except_toOption_eq_some,
    except_toOption_eq_some]

namespace Weave

/-! ## Fields -/

namespace PlannedField

/-- The member is a field with those flags, that name and that descriptor. -/
structure IsField (p : Pool) (access : Access) (name descriptor : String) (m : Member) : Prop where
  access : m.access = access
  named : m.isNamed p name descriptor = true

/-- The only attribute of the member is its value. -/
def IsConstant (p : Pool) (value : Literal) (m : Member) : Prop :=
  ∃ a index, m.attributes = [a] ∧ p.utf8 a.name = .ok "ConstantValue" ∧
    a.body = .constantValue index ∧ p.literal index = .ok value

/-- The fields that a class has for a planned field. -/
def IsDeclared (p : Pool) (f : PlannedField) (group : List Member) : Prop :=
  ∃ m, IsField p f.access f.name f.type.descriptor m ∧
    match f.init with
    | .default | .store _ => group = [m] ∧ m.attributes = []
    | .constant value => group = [m] ∧ IsConstant p value m
    | .callback token holder => ∃ h, group = [h, m] ∧ m.attributes = [] ∧
      IsField p holderAccess holder JType.string.descriptor h ∧ IsConstant p (.string token) h

theorem isField_of_named {access : Access} {name descriptor : String} {m m' : Member} {r : Pool}
    (h : Member.named access name descriptor p = (m, q)) (sound : p.Sound) (grown : q.Extends r)
    (small : r.size < 65536) (same : m'.access = m.access ∧ m'.name = m.name ∧
      m'.descriptor = m.descriptor) : IsField r access name descriptor m' := by
  obtain ⟨-, flags, -, held⟩ := Member.named_eq_ok h
  obtain ⟨named, typed⟩ := held sound
  obtain ⟨same, same', same''⟩ := same
  refine ⟨same.trans flags, Member.isNamed_iff.2 ⟨?_, ?_⟩⟩
  · rw [same', (named.mono grown).utf8 (by omega)]
  · rw [same'', (typed.mono grown).utf8 (by omega)]

variable (options) in
/-- The value attribute of a literal. -/
theorem constantValue_eq_ok {value : Literal} {index : UInt16} {a : Attribute} {p' : Pool}
    (added : Pool.addLiteral value p = (index, p'))
    (named : Attribute.named "ConstantValue" (.constantValue index) p' = (a, q)) :
    p.GrowsTo q ∧ (p.Sound → a.Readable options q ∧ ∀ r, q.Extends r → r.size < 65536 →
      r.utf8 a.name = .ok "ConstantValue" ∧ a.body = .constantValue index ∧
        r.literal index = .ok value) := by
  have grown := (Pool.grows_addLiteral value).made added
  have grown' := (Attribute.grows_named _ _).made named
  refine ⟨grown.trans grown', fun sound => ?_⟩
  refine ⟨Attribute.readable_named named (grown.sound sound) rfl rfl trivial, fun r later small => ?_⟩
  have literal := Pool.literal_addLiteral sound value (r := r)
    (by rw [added]; exact grown'.keeps.trans later) small
  rw [added] at literal
  cases named
  exact ⟨((Pool.holds_addUtf8 (grown.sound sound) _).mono later).utf8 (by omega), rfl, literal⟩

theorem readable_field {access : Access} {name descriptor : String} {m : Member}
    (h : Member.named access name descriptor p = (m, q)) (sound : p.Sound)
    {attributes : List Attribute} {r : Pool} (grown : q.Extends r)
    (readable : ∀ a ∈ attributes, a.Readable options r) :
    ({ m with attributes } : Member).Readable options r := by
  obtain ⟨-, -, -, held⟩ := Member.named_eq_ok h
  obtain ⟨named, typed⟩ := held sound
  exact ⟨⟨_, named.mono grown⟩, ⟨_, typed.mono grown⟩, readable⟩

variable (options) in
/-- What declaring a planned field gives. -/
theorem members_eq_ok {f : PlannedField} {group : List Member}
    (h : f.members p = .ok group q) :
    p.GrowsTo q ∧ (p.Sound → (∀ m ∈ group, m.Readable options q) ∧
      ∀ r, q.Extends r → r.size < 65536 → f.IsDeclared r group) := by
  obtain ⟨m, p₁, named, h⟩ := step_bind_eq_ok.1 h
  have named := edit_change_eq_ok.1 named
  obtain ⟨grown₁, -, none, -⟩ := Member.named_eq_ok named
  have bare (sound : p.Sound) {r : Pool} (later : p₁.Extends r) : m.Readable options r := by
    have readable : ({ m with attributes := [] } : Member).Readable options r :=
      readable_field named sound later (List.forall_mem_nil _)
    rwa [← none] at readable
  unfold IsDeclared
  cases init : f.init with
  | default | store value =>
    simp only [init] at h
    obtain ⟨rfl, rfl⟩ := step_pure_eq_ok.1 h
    exact ⟨grown₁, fun sound => ⟨fun x mem => List.mem_singleton.1 mem ▸ bare sound (.refl _),
      fun r later small =>
        ⟨m, isField_of_named named sound later small ⟨rfl, rfl, rfl⟩, rfl, none⟩⟩⟩
  | constant value =>
    simp only [init] at h
    obtain ⟨index, p₂, added, h⟩ := step_bind_eq_ok.1 h
    obtain ⟨a, p₃, labelled, h⟩ := step_bind_eq_ok.1 h
    obtain ⟨rfl, rfl⟩ := step_pure_eq_ok.1 h
    obtain ⟨grown₂, held⟩ := constantValue_eq_ok options (edit_change_eq_ok.1 added)
      (edit_change_eq_ok.1 labelled)
    refine ⟨grown₁.trans grown₂, fun sound => ?_⟩
    obtain ⟨readable, held⟩ := held (grown₁.sound sound)
    refine ⟨fun x mem => ?_, fun r later small => ?_⟩
    · rw [List.mem_singleton.1 mem]
      exact readable_field named sound grown₂.keeps fun b mem => List.mem_singleton.1 mem ▸ readable
    · exact ⟨{ m with attributes := [a] },
        isField_of_named named sound (grown₂.keeps.trans later) small ⟨rfl, rfl, rfl⟩, rfl,
        a, index, rfl, held r later small⟩
  | callback token holder =>
    simp only [init] at h
    obtain ⟨x, p₂, holding, h⟩ := step_bind_eq_ok.1 h
    obtain ⟨index, p₃, added, h⟩ := step_bind_eq_ok.1 h
    obtain ⟨a, p₄, labelled, h⟩ := step_bind_eq_ok.1 h
    obtain ⟨rfl, rfl⟩ := step_pure_eq_ok.1 h
    have holding := edit_change_eq_ok.1 holding
    obtain ⟨grown₂, -, -, -⟩ := Member.named_eq_ok holding
    obtain ⟨grown₃, held⟩ := @constantValue_eq_ok options _ _ (.string token) _ _ _
      (edit_change_eq_ok.1 added) (edit_change_eq_ok.1 labelled)
    have later := grown₂.trans grown₃
    refine ⟨grown₁.trans later, fun sound => ?_⟩
    have sound₁ := grown₁.sound sound
    obtain ⟨readable, held⟩ := held (grown₂.sound sound₁)
    refine ⟨fun y mem => ?_, fun r latest small => ?_⟩
    · rcases List.mem_cons.1 mem with rfl | mem
      · exact readable_field holding sound₁ grown₃.keeps fun b mem =>
          List.mem_singleton.1 mem ▸ readable
      · exact List.mem_singleton.1 mem ▸ bare sound later.keeps
    · exact ⟨m, isField_of_named named sound (later.keeps.trans latest) small ⟨rfl, rfl, rfl⟩,
        _, rfl, none, isField_of_named holding sound₁ (grown₃.keeps.trans latest) small
          ⟨rfl, rfl, rfl⟩, a, index, rfl, held r latest small⟩

end PlannedField

variable (options) in
/-- What declaring planned fields does to a class. -/
theorem declareFields_eq_ok {fields : List PlannedField} {c c' : ClassFile}
    (h : declareFields fields c = .ok () c') :
    Keeps options c c' ∧ c'.methods = c.methods ∧ c'.attributes = c.attributes ∧
      ∃ groups, c'.fields = c.fields ++ groups.flatten ∧ (c.pool.Sound → ∀ r, c'.pool.Extends r →
        r.size < 65536 → List.Forall₂ (PlannedField.IsDeclared r) fields groups) := by
  unfold declareFields at h
  induction fields generalizing c with
  | nil =>
    cases h
    exact ⟨.refl _, rfl, rfl, [], by simp, fun _ _ _ _ => .nil⟩
  | cons f fields ih =>
    obtain ⟨⟨⟩, c₁, first, h⟩ := step_bind_eq_ok.1 h
    obtain ⟨group, c₂, edited, pushed⟩ := step_bind_eq_ok.1 first
    obtain ⟨q, made, rfl⟩ := editPool_eq_ok edited
    cases pushed
    obtain ⟨grown, declared⟩ := PlannedField.members_eq_ok options made
    obtain ⟨keeps, methods, attributes, groups, appended, rest⟩ := ih h
    have head : Keeps options c { c with pool := q, fields := c.fields ++ group } := by
      refine .of_members grown (fun h m mem => ?_) (fun h m mem => (h.methods m mem).mono grown.keeps)
        fun h a mem => (h.attributes a mem).mono grown.keeps
      rcases List.mem_append.1 mem with mem | mem
      · exact (h.fields m mem).mono grown.keeps
      · exact (declared h.pool).1 m mem
    refine ⟨head.trans keeps, methods, attributes, group :: groups, ?_, fun sound r later small => ?_⟩
    · rw [appended, List.flatten_cons, List.append_assoc]
    · exact .cons ((declared sound).2 r (keeps.pool.keeps.trans later) small)
        (rest (grown.sound sound) r later small)

/-! ## Code that assigns fields -/

theorem PlannedField.writes_put (owner : ClassName) (f : PlannedField) : Writes (f.put owner) := by
  unfold PlannedField.put Build.putStatic Build.putField
  intro b b' h
  split at h
  all_goals
    obtain ⟨index, wrote, -⟩ := Build.field_wrote h (by decide) (by decide)
    exact ⟨_, wrote, by simp⟩

theorem Writes.straight {x : Build Unit} (h : Writes x) : x.Straight := fun b _ b' done =>
  have ⟨ops, wrote, _⟩ := h b b' done
  ⟨ops, wrote⟩

theorem Writes.before {x : Build Unit} {f : Unit → Build Unit} (hx : Writes x)
    (hf : ∀ a, (f a).Straight) : Writes (x >>= f) := by
  intro b b'' h
  obtain ⟨a, b', first, second⟩ := step_bind_eq_ok.1 h
  obtain ⟨ops, wrote, some⟩ := hx b b' first
  obtain ⟨ops', wrote'⟩ := hf a b' () b'' second
  exact ⟨ops ++ ops', wrote.trans wrote', by simp [some]⟩

theorem PlannedField.writes_assign (owner : ClassName) {f : PlannedField} (h : f.needsCode = true) :
    Writes (f.assign owner) := by
  unfold needsCode FieldInit.needsCode at h
  unfold assign
  cases init : f.init with
  | default => rw [init] at h; cases h
  | constant value => rw [init] at h; cases h
  | store value =>
    exact .after Build.straight_loadThis fun _ => .after (Build.straight_pushLiteral value)
      fun _ => f.writes_put owner
  | callback token holder =>
    have rest (receiver : Build Unit) (straight : receiver.Straight) : Writes (do
        Build.getStatic owner holder .string
        receiver
        Build.invokeStatic bridgeClass "initialValue" initialValueDescriptor
        Build.unbox f.type
        f.put owner) :=
      .after (Build.straight_field (by decide) (by decide) _ _ _ _ _) fun _ =>
        .after straight fun _ => .after (Build.straight_invokeStatic _ _ _) fun _ =>
          .after (Build.straight_unbox _) fun _ => f.writes_put owner
    cases static : f.isStatic with
    | true => exact rest _ Build.straight_pushNull
    | false => exact .after Build.straight_loadThis fun _ => rest _ Build.straight_loadThis

theorem straight_assignAll (owner : ClassName) {fields : List PlannedField}
    (h : ∀ f ∈ fields, f.needsCode = true) : (assignAll owner fields).Straight := by
  induction fields with
  | nil => exact .pure _
  | cons f fields ih =>
    exact (PlannedField.writes_assign owner (h f List.mem_cons_self)).straight.bind
      fun _ => ih fun g mem => h g (List.mem_cons_of_mem f mem)

theorem writes_assignAll (owner : ClassName) {fields : List PlannedField}
    (h : ∀ f ∈ fields, f.needsCode = true) (some : fields ≠ []) :
    Writes (assignAll owner fields) := by
  cases fields with
  | nil => exact absurd rfl some
  | cons f fields =>
    exact .before (PlannedField.writes_assign owner (h f List.mem_cons_self))
      fun _ => straight_assignAll owner fun g mem => h g (List.mem_cons_of_mem f mem)

theorem needsCode_of_pending {isStatic : Bool} {fields : List PlannedField} :
    ∀ f ∈ pendingFields isStatic fields, f.needsCode = true := by
  intro f mem
  have kept := (List.mem_filter.1 mem).2
  rw [Bool.and_eq_true] at kept
  exact kept.2

theorem assignment_eq_ok {fields : List PlannedField} {locals : UInt16} {f : Fragment}
    (h : assignment owner fields locals p = .ok f q)
    (needed : ∀ f ∈ fields, f.needsCode = true) (some : fields ≠ []) :
    p.GrowsTo q ∧ f.body.instructions ≠ [] := by
  obtain ⟨body, p', built, h⟩ := step_bind_eq_ok.1 h
  obtain ⟨offsets, p'', lifted, h⟩ := step_bind_eq_ok.1 h
  obtain ⟨-, rfl⟩ := edit_lift_eq_ok.1 lifted
  obtain ⟨rfl, rfl⟩ := step_pure_eq_ok.1 h
  obtain ⟨grown, some_code⟩ := build_eq_ok (writes_assignAll owner needed some) built
  refine ⟨grown, fun none => some_code ?_⟩
  simp only [Body.instructions, List.filterMap_append, List.append_eq_nil_iff] at none
  exact none.1

/-- A body into which instructions are inserted has some. -/
theorem instructions_splice {b f : Body} {position : Nat} (some : f.instructions ≠ []) :
    (b.splice position f).instructions ≠ [] := by
  obtain ⟨i, mem⟩ := List.exists_mem_of_ne_nil _ some
  obtain ⟨item, placed, is_op⟩ := List.mem_filterMap.1 mem
  have op : item = .op i := by
    revert is_op
    cases item <;> simp [Item.instruction?]
  subst op
  refine List.ne_nil_of_mem (a := i.mapLabels (Label.shift b.labelCount)) ?_
  refine List.mem_filterMap.2 ⟨.op (i.mapLabels (Label.shift b.labelCount)), ?_, rfl⟩
  refine List.mem_append_right _ (List.mem_append_left _ ?_)
  exact List.mem_map.2 ⟨.op i, placed, rfl⟩

theorem holds_of_stackMap? {code : CodeAttribute} {name : UInt16} {data : Bytes}
    (h : stackMap? p code = some (name, data)) : p.Holds name (.utf8 "StackMapTable") := by
  obtain ⟨a, -, found⟩ := List.exists_of_findSome?_eq_some h
  split at found
  · split at found
    · rename_i named
      cases found
      refine Pool.holds_of_utf8 ?_
      cases text : p.utf8 a.name with
      | error e => simp [text, Except.toOption] at named
      | ok s => simpa [text, Except.toOption] using named
    · cases found
  · cases found

/-- Inserting code writes the body with it, and behind that the stack map, if there is one. -/
theorem insertCode_steps {code c : CodeAttribute} {body : Body} {position : Nat} {f : Fragment}
    (h : insertCode code body position f p = .ok c q) : ∃ spliced,
      (body.splice position f.body).toCode p = .ok spliced q ∧
        (c = spliced ∨ ∃ name data moved, stackMap? p code = some (name, data) ∧
          c = { spliced with attributes := spliced.attributes ++ [⟨name, .raw moved⟩] }) := by
  unfold insertCode at h
  rw [step_get_bind] at h
  cases map : stackMap? p code with
  | none =>
    rw [map] at h
    exact ⟨c, h, .inl rfl⟩
  | some entry =>
    obtain ⟨name, data⟩ := entry
    rw [map] at h
    obtain ⟨offset, p₁, lifted, h⟩ := step_bind_eq_ok.1 h
    obtain ⟨-, rfl⟩ := edit_lift_eq_ok.1 lifted
    obtain ⟨spliced, p₂, coded, h⟩ := step_bind_eq_ok.1 h
    split at h
    · cases h
    · obtain ⟨moved, p₃, lifted, h⟩ := step_bind_eq_ok.1 h
      obtain ⟨-, rfl⟩ := edit_lift_eq_ok.1 lifted
      obtain ⟨rfl, rfl⟩ := step_pure_eq_ok.1 h
      exact ⟨spliced, coded, .inr ⟨name, data, moved, rfl, rfl⟩⟩

theorem insertCode_eq_ok {code c : CodeAttribute} {body : Body} {position : Nat} {f : Fragment}
    (h : insertCode code body position f p = .ok c q) (some_code : f.body.instructions ≠ []) :
    p.GrowsTo q ∧ (p.Sound → c.Readable options q) := by
  have some : (body.splice position f.body).instructions ≠ [] := instructions_splice some_code
  obtain ⟨spliced, coded, same⟩ := insertCode_steps h
  have grown := (Body.toCode_eq_ok coded).1
  refine ⟨grown, fun sound => ?_⟩
  have readable := Body.readable_toCode options coded sound some
  obtain rfl | ⟨name, data, moved, map, rfl⟩ := same
  · exact readable
  · refine ⟨readable.some_code, readable.short, fun a mem => ?_⟩
    rcases List.mem_append.1 mem with mem | mem
    · exact readable.attributes a mem
    · rw [List.mem_singleton.1 mem]
      exact Attribute.readable_raw ((holds_of_stackMap? map).mono grown.keeps) (by simp) rfl moved

variable (options) in
theorem insertAssignment_eq_ok {fields : List PlannedField} {code c : CodeAttribute} {body : Body}
    {position : Nat} (h : insertAssignment owner fields code body position p = .ok c q)
    (needed : ∀ f ∈ fields, f.needsCode = true) (some : fields ≠ []) :
    p.GrowsTo q ∧ (p.Sound → c.Readable options q) := by
  obtain ⟨f, p', made, h⟩ := step_bind_eq_ok.1 h
  obtain ⟨grown, some_code⟩ := assignment_eq_ok made needed some
  obtain ⟨grown', readable⟩ := insertCode_eq_ok h some_code
  exact ⟨grown.trans grown', readable ∘ grown.sound⟩

/-! ## Constructors -/

/-- A body is read with more constants as it was read with fewer. -/
theorem ofCode_mono {code : CodeAttribute} {b : Body} (h : Body.ofCode code p = .ok b)
    (grown : p.Extends q) : Body.ofCode code q = .ok b := by
  unfold Body.ofCode at h ⊢
  obtain ⟨located, read, h⟩ := except_bind_eq_ok.1 h
  obtain ⟨⟨⟩, targets, h⟩ := except_bind_eq_ok.1 h
  obtain ⟨⟨⟩, exceptions, h⟩ := except_bind_eq_ok.1 h
  refine except_bind_eq_ok.2 ⟨located, read, except_bind_eq_ok.2 ⟨(), targets,
    except_bind_eq_ok.2 ⟨(), exceptions, ?_⟩⟩⟩
  dsimp only at h ⊢
  split at h
  · cases h
  · rename_i none
    cases h
    rw [List.find?_eq_none] at none
    split
    · rename_i i found
      have known := none i (List.mem_of_find?_eq_some found)
      have unknown := List.find?_some found
      simp only [Bool.not_eq_true', Bool.not_eq_false] at known unknown
      rw [Body.constantInRange_of_extends grown known] at unknown
      cases unknown
    · rfl

theorem specialCall?_mono {i : Instruction} {m? : Option MemberRef}
    (h : specialCall? p i = .ok m?) (grown : p.Extends q) : specialCall? q i = .ok m? := by
  unfold specialCall? at h ⊢
  split at h
  · rw [if_pos ‹_›]
    split at h
    · obtain ⟨m, found, rfl⟩ := except_map_eq_ok.1 h
      exact except_map_eq_ok.2 ⟨m, Pool.memberRef_mono grown found, rfl⟩
    · exact h
  · rw [if_neg ‹_›]
    exact h

theorem startFrom_mono {code : List Item} {position pending : Nat}
    {start? : Option ConstructorStart} (h : startFrom p owner code position pending = .ok start?)
    (grown : p.Extends q) : startFrom q owner code position pending = .ok start? := by
  induction code generalizing position pending with
  | nil => exact h
  | cons item rest ih =>
    cases item with
    | label l => exact ih h
    | op i =>
      unfold startFrom at h ⊢
      split at h
      · rw [if_pos ‹_›]
        exact ih h
      · rw [if_neg ‹_›]
        obtain ⟨m?, called, h⟩ := except_bind_eq_ok.1 h
        refine except_bind_eq_ok.2 ⟨m?, specialCall?_mono called grown, ?_⟩
        cases m? with
        | none => exact ih h
        | some m =>
          dsimp only at h ⊢
          split at h
          · rw [if_pos ‹_›]
            exact ih h
          · rw [if_neg ‹_›]
            split at h
            · rw [if_pos ‹_›]
              exact ih h
            · rw [if_neg ‹_›]
              exact h

/-- The method calls another constructor of its class before anything else. -/
def Delegates (p : Pool) (owner : ClassName) (m : Member) : Prop :=
  ∃ code body, m.code? = some code ∧ Body.ofCode code p = .ok body ∧
    constructorStart p owner body = .ok (some .delegates)

theorem Delegates.mono {m : Member} (h : Delegates p owner m) (grown : p.Extends q) :
    Delegates q owner m := by
  obtain ⟨code, body, coded, read, start⟩ := h
  exact ⟨code, body, coded, ofCode_mono read grown, startFrom_mono start grown⟩

/-- The method is a constructor that does not delegate, with other code. -/
def IsInitialized (p : Pool) (owner : ClassName) (m m' : Member) : Prop :=
  p.utf8 m.name = .ok "<init>" ∧ ¬ Delegates p owner m ∧ ∃ code, m' = m.setCode code

/-- The method is a constructor whose code calls one of the superclass in front of a position,
before any of its own class. -/
structure SuperCall (p : Pool) (owner : ClassName) (m : Member) (code : CodeAttribute) (body : Body)
    (position : Nat) : Prop where
  special : p.utf8 m.name = .ok "<init>"
  coded : m.code? = some code
  read : Body.ofCode code p = .ok body
  start : constructorStart p owner body = .ok (some (.callsSuper position))

theorem SuperCall.not_delegates {m : Member} {code : CodeAttribute} {body : Body} {position : Nat}
    (h : SuperCall p owner m code body position) : ¬ Delegates p owner m := by
  rintro ⟨code', body', coded, read, start⟩
  cases h.coded.symm.trans coded
  cases h.read.symm.trans read
  cases h.start.symm.trans start

theorem initializeIn_of_superCall {fields : List PlannedField} {m : Member} {code : CodeAttribute}
    {body : Body} {position : Nat} (h : SuperCall p owner m code body position) :
    initializeIn owner fields m p =
      (do return m.setCode (← insertAssignment owner fields code body position)) p := by
  rw [initializeIn, step_get_bind, step_bind_ok (edit_lift_eq_ok.2 ⟨h.special, rfl⟩),
    if_neg (not_not.2 rfl), h.coded]
  exact (step_bind_ok (edit_lift_eq_ok.2 ⟨h.read, rfl⟩)).trans
    (step_bind_ok (edit_lift_eq_ok.2 ⟨h.start, rfl⟩))

theorem initializeIn_of_delegates {fields : List PlannedField} {m : Member}
    (special : p.utf8 m.name = .ok "<init>") (h : Delegates p owner m) :
    initializeIn owner fields m p = .ok m p := by
  obtain ⟨code, body, coded, read, start⟩ := h
  rw [initializeIn, step_get_bind, step_bind_ok (edit_lift_eq_ok.2 ⟨special, rfl⟩),
    if_neg (not_not.2 rfl), coded]
  exact (step_bind_ok (edit_lift_eq_ok.2 ⟨read, rfl⟩)).trans
    (step_bind_ok (edit_lift_eq_ok.2 ⟨start, rfl⟩))

/-- Fields are assigned behind the call of a constructor of the superclass. Other methods stay. -/
theorem initializeIn_cases {fields : List PlannedField} {m m' : Member}
    (h : initializeIn owner fields m p = .ok m' q) :
    (m' = m ∧ q = p ∧ ∀ code body position, ¬ SuperCall p owner m code body position) ∨
      ∃ code body position c, SuperCall p owner m code body position ∧
        insertAssignment owner fields code body position p = .ok c q ∧ m' = m.setCode c := by
  unfold initializeIn at h
  rw [step_get_bind] at h
  obtain ⟨name, p', lifted, h⟩ := step_bind_eq_ok.1 h
  obtain ⟨named, rfl⟩ := edit_lift_eq_ok.1 lifted
  split at h
  · rename_i other
    obtain ⟨rfl, rfl⟩ := step_pure_eq_ok.1 h
    exact .inl ⟨rfl, rfl, fun _ _ _ call => other (Except.ok.inj (named.symm.trans call.special))⟩
  · rename_i special
    cases coded : m.code? with
    | none =>
      rw [coded] at h
      obtain ⟨rfl, rfl⟩ := step_pure_eq_ok.1 h
      exact .inl ⟨rfl, rfl, fun _ _ _ call => nomatch coded.symm.trans call.coded⟩
    | some code =>
      rw [coded] at h
      obtain ⟨body, p', lifted, h⟩ := step_bind_eq_ok.1 h
      obtain ⟨read, rfl⟩ := edit_lift_eq_ok.1 lifted
      obtain ⟨start?, p', lifted, h⟩ := step_bind_eq_ok.1 h
      obtain ⟨start, rfl⟩ := edit_lift_eq_ok.1 lifted
      match start?, start, h with
      | none, _, h =>
        obtain ⟨text, p', -, h⟩ := step_bind_eq_ok.1 h
        cases h
      | some .delegates, start, h =>
        obtain ⟨rfl, rfl⟩ := step_pure_eq_ok.1 h
        exact .inl ⟨rfl, rfl, fun _ _ _ call => call.not_delegates ⟨code, body, coded, read, start⟩⟩
      | some (.callsSuper position), start, h =>
        obtain ⟨c, p', inserted, h⟩ := step_bind_eq_ok.1 h
        obtain ⟨rfl, rfl⟩ := step_pure_eq_ok.1 h
        rw [not_not.1 special] at named
        exact .inr ⟨code, body, position, c, ⟨named, coded, read, start⟩, inserted, rfl⟩

variable (options) in
theorem initializeIn_eq_ok {fields : List PlannedField} {m m' : Member}
    (h : initializeIn owner fields m p = .ok m' q) (needed : ∀ f ∈ fields, f.needsCode = true)
    (nonempty : fields ≠ []) :
    p.GrowsTo q ∧ (m' = m ∨ IsInitialized p owner m m') ∧
      (p.Sound → m.Readable options p → m'.Readable options q) := by
  rcases initializeIn_cases h with ⟨rfl, rfl, -⟩ | ⟨code, body, position, c, call, inserted, rfl⟩
  · exact ⟨.refl q, .inl rfl, fun _ readable => readable⟩
  · obtain ⟨grown, readable⟩ := insertAssignment_eq_ok options inserted needed nonempty
    exact ⟨grown, .inr ⟨call.special, call.not_delegates, c, rfl⟩, fun sound before =>
      Member.readable_setCode (before.mono grown.keeps) (readable sound)⟩

/-- Instance fields are assigned in one method behind the other. -/
theorem initializeIn_of_initializeInstances {fields : List PlannedField} {c c' : ClassFile}
    (h : initializeInstances owner fields c = .ok () c') :
    pendingFields false fields = [] ∧ c' = c ∨
      pendingFields false fields ≠ [] ∧ ∃ methods q, c' = { c with pool := q, methods } ∧
        c.pool.GrowsTo q ∧ List.Forall₂ (fun m m' => ∃ p p', c.pool.GrowsTo p ∧
          initializeIn owner (pendingFields false fields) m p = .ok m' p' ∧ p'.GrowsTo q)
          c.methods methods := by
  unfold initializeInstances at h
  split at h
  · rename_i none
    cases h
    exact .inl ⟨by simpa using none, rfl⟩
  · rename_i pending
    have nonempty : pendingFields false fields ≠ [] := by simpa using pending
    rw [step_get_bind] at h
    obtain ⟨methods, c₁, edited, h⟩ := step_bind_eq_ok.1 h
    obtain ⟨q, done, rfl⟩ := editPool_eq_ok edited
    cases h
    obtain ⟨each, grown⟩ := step_mapM_forall₂ Pool.GrowsTo.refl (fun _ _ _ => Pool.GrowsTo.trans)
      (fun _ _ _ _ made => (initializeIn_eq_ok {} made needsCode_of_pending nonempty).1) done
    exact .inr ⟨nonempty, methods, q, rfl, grown, each⟩

variable (options) in
/-- What assigning instance fields does to a class. -/
theorem initializeInstances_eq_ok {fields : List PlannedField} {c c' : ClassFile}
    (h : initializeInstances owner fields c = .ok () c') :
    Keeps options c c' ∧ c'.fields = c.fields ∧ c'.attributes = c.attributes ∧
      List.Forall₂ (fun m m' => m' = m ∨ (pendingFields false fields ≠ [] ∧
        ∃ r, c.pool.Extends r ∧ r.Extends c'.pool ∧ IsInitialized r owner m m'))
        c.methods c'.methods := by
  rcases initializeIn_of_initializeInstances h with
    ⟨-, rfl⟩ | ⟨nonempty, methods, q, rfl, grown, each⟩
  · exact ⟨.refl _, rfl, rfl, List.forall₂_same.2 fun _ _ => .inl rfl⟩
  · refine ⟨.of_methods grown fun readable m' mem => ?_, rfl, rfl, each.imp fun m m' => ?_⟩
    · obtain ⟨m, old, p, p', before, made, after⟩ := forall₂_mem_right each mem
      exact ((initializeIn_eq_ok options made needsCode_of_pending nonempty).2.2
        (before.sound readable.pool) ((readable.methods m old).mono before.keeps)).mono after.keeps
    · rintro ⟨p, p', before, made, after⟩
      obtain ⟨step, change, -⟩ := initializeIn_eq_ok options made needsCode_of_pending nonempty
      exact change.imp_right fun initialized =>
        ⟨nonempty, p, before.keeps, (step.trans after).keeps, initialized⟩

/-! ## The class initializer -/

/-- The method is the class initializer, with other code. -/
def IsClassInitialized (p : Pool) (m m' : Member) : Prop :=
  m.isNamed p "<clinit>" plainDescriptor.descriptor = true ∧ ∃ code, m' = m.setCode code

/-- The method has the name and the descriptor of class initializers. -/
structure IsAddedInitializer (p : Pool) (m : Member) : Prop where
  name : p.Holds m.name (.utf8 "<clinit>")
  descriptor : p.Holds m.descriptor (.utf8 plainDescriptor.descriptor)

theorem IsAddedInitializer.mono {m : Member} (h : IsAddedInitializer p m) (grown : p.Extends q) :
    IsAddedInitializer q m := ⟨h.name.mono grown, h.descriptor.mono grown⟩

theorem writes_initializer (owner : ClassName) {fields : List PlannedField}
    (h : ∀ f ∈ fields, f.needsCode = true) :
    Writes (assignAll owner fields >>= fun _ => Build.returnValue .void) :=
  .after (straight_assignAll owner h) fun _ => .returnValue .void

/-- Static fields are assigned in front of the code of the class initializer. A class without one
gets one that does nothing else. -/
theorem initializeStatics_cases {fields : List PlannedField} {c c' : ClassFile}
    (h : initializeStatics owner fields c = .ok () c') :
    (pendingFields true fields = [] ∧ c' = c) ∨ (pendingFields true fields ≠ [] ∧
      (((∀ m ∈ c.methods, ¬ m.isNamed c.pool "<clinit>" plainDescriptor.descriptor = true) ∧
        pushMethod (builtMethod (.accStatic ∪ .accSynthetic) "<clinit>" plainDescriptor
          (assignAll owner (pendingFields true fields) >>= fun _ => Build.returnValue .void)) c =
            .ok () c') ∨
      ∃ m code body code' q,
        c.methods.find? (·.isNamed c.pool "<clinit>" plainDescriptor.descriptor) = some m ∧
          m.code? = some code ∧ Body.ofCode code c.pool = .ok body ∧
          insertAssignment owner (pendingFields true fields) code body 0 c.pool = .ok code' q ∧
          c' = { c with
            pool := q
            methods := updateFirst (·.isNamed c.pool "<clinit>" plainDescriptor.descriptor)
              (·.setCode code') c.methods })) := by
  unfold initializeStatics at h
  split at h
  · rename_i none
    cases h
    exact .inl ⟨by simpa using none, rfl⟩
  · rename_i pending
    refine .inr ⟨by simpa using pending, ?_⟩
    rw [step_get_bind] at h
    cases found : c.methods.find? (·.isNamed c.pool "<clinit>" plainDescriptor.descriptor) with
    | none =>
      simp only [found] at h
      exact .inl ⟨List.find?_eq_none.1 found, h⟩
    | some m =>
      simp only [found] at h
      cases coded : m.code? with
      | none =>
        simp only [coded] at h
        cases h
      | some code =>
        simp only [coded] at h
        obtain ⟨body, c₁, lifted, h⟩ := step_bind_eq_ok.1 h
        obtain ⟨read, rfl⟩ := edit_lift_eq_ok.1 lifted
        obtain ⟨code', c₁, edited, h⟩ := step_bind_eq_ok.1 h
        obtain ⟨q, inserted, rfl⟩ := editPool_eq_ok edited
        cases h
        exact .inr ⟨m, code, body, code', q, rfl, coded, read, inserted, rfl⟩

variable (options) in
/-- What assigning static fields does to a class. -/
theorem initializeStatics_eq_ok {fields : List PlannedField} {c c' : ClassFile}
    (h : initializeStatics owner fields c = .ok () c') :
    Keeps options c c' ∧ c'.fields = c.fields ∧ c'.attributes = c.attributes ∧
      ∃ base' added, c'.methods = base' ++ added ∧
        List.Forall₂ (fun m m' => m' = m ∨ (pendingFields true fields ≠ [] ∧
          IsClassInitialized c.pool m m')) c.methods base' ∧
        (c.pool.Sound → ∀ m ∈ added, IsAddedInitializer c'.pool m) := by
  have same : List.Forall₂ (fun m m' => m' = m ∨ (pendingFields true fields ≠ [] ∧
      IsClassInitialized c.pool m m')) c.methods c.methods :=
    List.forall₂_same.2 fun _ _ => .inl rfl
  rcases initializeStatics_cases h with ⟨-, rfl⟩ | ⟨nonempty, ⟨-, pushed⟩ |
    ⟨m, code, body, code', q, found, coded, read, inserted, rfl⟩⟩
  · exact ⟨.refl _, rfl, rfl, c'.methods, [], (List.append_nil _).symm, same,
      fun _ m mem => nomatch mem⟩
  · obtain ⟨keeps, fields, attributes, m, methods, emitted⟩ :=
      pushMethod_eq_ok options pushed fun m q built =>
        builtMethod_eq_ok options (writes_initializer owner needsCode_of_pending) built
    refine ⟨keeps, fields, attributes, c.methods, [m], methods, same, fun sound x mem => ?_⟩
    rw [List.mem_singleton.1 mem]
    exact ⟨emitted.named sound, emitted.typed sound⟩
  · obtain ⟨grown, readable⟩ := insertAssignment_eq_ok options inserted
      needsCode_of_pending nonempty
    refine ⟨.of_methods grown fun h x mem => ?_, rfl, rfl, _, [], (List.append_nil _).symm, ?_,
      fun _ m mem => nomatch mem⟩
    · rcases updateFirst_mem mem with old | ⟨y, old, -, rfl⟩
      · exact (h.methods x old).mono grown.keeps
      · exact Member.readable_setCode ((h.methods y old).mono grown.keeps) (readable h.pool)
    · exact (forall₂_updateFirst c.methods).imp fun x x' change =>
        change.imp_right fun ⟨named, changed⟩ => ⟨nonempty, named, code', changed⟩

end Weave

end Weft
