import Weft.Proofs.Site.Decoding
import Weft.Proofs.Weave.Additions
import Weft.Weave.HelperClass

/-!
# Helper classes are classes

The class file of a helper is readable and has the name of the helper. Of the types of its member
only the class that has it comes into descriptors, so they are read if that class can be spelled.
-/

namespace Weft

variable {options : DecodeOptions} {p q : Pool}

/-! ## Classes without members -/

/-- The class has a name and nothing else that it does not need. -/
structure ClassFile.IsBare (options : DecodeOptions) (name : String) (majorVersion : UInt16)
    (c : ClassFile) : Prop where
  pool : c.pool.Sound
  few : c.pool.size ≤ 7
  named : c.name = .ok (.ofText name)
  fields : c.fields = []
  methods : c.methods = []
  attributes : c.attributes = []
  readable : leastVersion ≤ majorVersion → c.Readable options

theorem ClassFile.IsBare.described {name : String} {majorVersion : UInt16} {c : ClassFile}
    (h : c.IsBare options name majorVersion) : c.Described where
  fields := h.fields ▸ List.forall_mem_nil _
  methods := h.methods ▸ List.forall_mem_nil _

variable (options) in
/-- A class that is made with a superclass and an interface is bare. -/
theorem ClassFile.bare_make {name above interface : String} {access : Access}
    {majorVersion : UInt16} {index : UInt16} {c : ClassFile}
    (made : addInterface interface (make name (some above) access majorVersion) = (index, c)) :
    c.IsBare options name majorVersion := by
  unfold make addInterface at made
  have grown₁ := Pool.grows_addClass name .empty
  have this := Pool.holds_addClass Pool.sound_empty name
  have size₁ := Pool.addClass_adds name .empty
  generalize Pool.addClass name .empty = added at made grown₁ this size₁
  obtain ⟨thisClass, p₁⟩ := added
  dsimp only at made grown₁ this size₁
  have sound₁ := grown₁.sound Pool.sound_empty
  have grown₂ := Pool.grows_addClass above p₁
  have super := Pool.holds_addClass sound₁ above
  have size₂ := Pool.addClass_adds above p₁
  generalize Pool.addClass above p₁ = added at made grown₂ super size₂
  obtain ⟨superClass, p₂⟩ := added
  dsimp only at made grown₂ super size₂
  have sound₂ := grown₂.sound sound₁
  have grown₃ := Pool.grows_addClass interface p₂
  have listed := Pool.holds_addClass sound₂ interface
  have size₃ := Pool.addClass_adds interface p₂
  generalize Pool.addClass interface p₂ = added at made grown₃ listed size₃
  obtain ⟨position, p₃⟩ := added
  dsimp only at made grown₃ listed size₃
  cases made
  have few : p₃.size ≤ 7 := by
    have one : Pool.empty.size = 1 := rfl
    omega
  have small : p₃.size ≤ 65536 := by omega
  have sound₃ := grown₃.sound sound₂
  have this := (this.mono (grown₂.keeps.trans grown₃.keeps)).className small
  have super := (super.mono grown₃.keeps).className small
  refine ⟨sound₃, few, this, rfl, rfl, rfl, fun version => ?_⟩
  constructor
  case pool => exact sound₃
  case version => exact version
  case named =>
    have resolved : ∃ found, (if superClass = 0 then .ok none
        else some <$> p₃.className superClass : Except Error (Option ClassName)) = .ok found := by
      split
      · exact ⟨none, rfl⟩
      · exact ⟨_, except_map_eq_ok.2 ⟨_, super, rfl⟩⟩
    obtain ⟨found, resolved⟩ := resolved
    exact except_bind_eq_ok.2 ⟨_, this, except_bind_eq_ok.2 ⟨found, resolved,
      except_bind_eq_ok.2 ⟨_, except_mapM_eq_ok.2 (.cons (listed.className small) .nil), rfl⟩⟩⟩
  case fields => exact fun m mem => nomatch mem
  case methods => exact fun m mem => nomatch mem
  case attributes => exact fun a mem => nomatch mem

namespace Weave

variable {c c' : ClassFile} {owner : ClassName}

/-! ## Members -/

/-- An edit that adds readable members, with descriptors of their kinds if the owner can be spelled
in them. -/
structure Enlarges (options : DecodeOptions) (owner : ClassName) (c c' : ClassFile) : Prop where
  keeps : Keeps options c c'
  described : owner.Spelled → c.pool.Sound → c.Described → c'.Described

namespace Enlarges

theorem refl (c : ClassFile) : Enlarges options owner c c := ⟨.refl c, fun _ _ => id⟩

theorem trans {c'' : ClassFile} (h : Enlarges options owner c c')
    (h' : Enlarges options owner c' c'') : Enlarges options owner c c'' where
  keeps := h.keeps.trans h'.keeps
  described spelled sound before :=
    h'.described spelled (h.keeps.pool.sound sound) (h.described spelled sound before)

variable (options) in
theorem pushField {access : Access} {name descriptor : String} {m : Member}
    (made : Member.named access name descriptor c.pool = (m, q))
    (typed : owner.Spelled → IsFieldDescriptor descriptor) :
    Enlarges options owner c { c with pool := q, fields := c.fields ++ [m] } := by
  obtain ⟨grown, -, bare, held⟩ := Member.named_eq_ok made
  constructor
  case keeps =>
    refine .of_members grown (fun h x mem => ?_) (fun h x mem => (h.methods x mem).mono grown.keeps)
      fun h a mem => (h.attributes a mem).mono grown.keeps
    rcases List.mem_append.1 mem with mem | mem
    · exact (h.fields x mem).mono grown.keeps
    · rw [List.mem_singleton.1 mem]
      refine ⟨⟨_, (held h.pool).1⟩, ⟨_, (held h.pool).2⟩, ?_⟩
      rw [bare]
      exact List.forall_mem_nil _
  case described =>
    intro spelled sound before
    refine ⟨fun x mem => ?_, fun x mem => (before.methods x mem).mono grown.keeps⟩
    rcases List.mem_append.1 mem with mem | mem
    · exact (before.fields x mem).mono grown.keeps
    · rw [List.mem_singleton.1 mem]
      exact ⟨⟨_, (held sound).1⟩, _, (held sound).2, typed spelled⟩

variable (options) in
theorem pushMethod {access : Access} {name : String} {d : MethodDescriptor} {code : Build Unit}
    (h : pushMethod (builtMethod access name d code) c = .ok () c') (writes : Writes code)
    (typed : owner.Spelled → d.Spelled) : Enlarges options owner c c' := by
  obtain ⟨keeps, fields, -, m, methods, emitted⟩ :=
    pushMethod_eq_ok options h fun m q built => builtMethod_eq_ok options writes built
  refine ⟨keeps, fun spelled sound before => ⟨fun x mem => ?_, fun x mem => ?_⟩⟩
  · rw [fields] at mem
    exact (before.fields x mem).mono keeps.pool.keeps
  · rw [methods] at mem
    rcases List.mem_append.1 mem with mem | mem
    · exact (before.methods x mem).mono keeps.pool.keeps
    · rw [List.mem_singleton.1 mem]
      exact ⟨⟨_, emitted.named sound⟩, _, emitted.typed sound, (typed spelled).isMethodDescriptor⟩

end Enlarges

/-! ## Descriptors of the library -/

theorem spelled_object : JType.object.Spelled :=
  .element (.reference (ClassName.spelled_of_all (by decide) (by decide)))

theorem spelled_string : JType.string.Spelled :=
  .element (.reference (ClassName.spelled_of_all (by decide) (by decide)))

theorem spelled_objects : objectsType.Spelled :=
  .array (by decide) (.reference (ClassName.spelled_of_all (by decide) (by decide)))

theorem spelled_boolean : (JType.primitive .boolean).Spelled := .element (.primitive _)

theorem spelled_plainDescriptor : plainDescriptor.Spelled :=
  ⟨fun _ mem => (List.not_mem_nil mem).elim, .inl rfl⟩

theorem spelled_getDescriptor : getDescriptor.Spelled :=
  ⟨fun _ mem => (List.not_mem_nil mem).elim, .inr spelled_object⟩

theorem spelled_isDirtyDescriptor : isDirtyDescriptor.Spelled :=
  ⟨fun _ mem => (List.not_mem_nil mem).elim, .inr spelled_boolean⟩

theorem spelled_setDescriptor : setDescriptor.Spelled :=
  ⟨fun _ mem => List.mem_singleton.1 mem ▸ spelled_object, .inl rfl⟩

theorem spelled_invokeDescriptor : invokeDescriptor.Spelled :=
  ⟨fun _ mem => List.mem_singleton.1 mem ▸ spelled_objects, .inr spelled_object⟩

theorem spelled_helperDescriptor (spelled : owner.Spelled) (isStatic : Bool) :
    (helperDescriptor owner isStatic).Spelled := by
  cases isStatic with
  | true => exact spelled_plainDescriptor
  | false => exact ⟨fun _ mem => List.mem_singleton.1 mem ▸ .element (.reference spelled), .inl rfl⟩

/-! ## Code -/

theorem Writes.ite {condition : Prop} [Decidable condition] {x y : Build Unit} (hx : Writes x)
    (hy : Writes y) : Writes (if condition then x else y) := by
  split <;> assumption

theorem Writes.throwTop : Writes Build.throwTop := fun _ _ h =>
  ⟨_, Build.throwTop_wrote h, by simp⟩

namespace Helper

theorem straight_loadTarget (h : Helper) : (h.loadTarget owner).Straight := by
  unfold loadTarget
  split
  · exact Build.straight_loadThis.bind fun _ =>
      Build.straight_field (by decide) (by decide) _ _ _ _ _
  · exact .pure _

theorem writes_constructorCode (h : Helper) : Writes (h.constructorCode owner) := by
  unfold constructorCode
  refine .after Build.straight_loadThis fun _ => .after (Build.straight_invokeSpecial _ _ _) fun _ => ?_
  split
  · exact .after Build.straight_loadThis fun _ => .after (Build.straight_load _ _) fun _ =>
      .after (Build.straight_field (by decide) (by decide) _ _ _ _ _) fun _ => .returnValue _
  · exact .returnValue _

theorem writes_invokeCode (h : Helper) (method : String) (d : MethodDescriptor) :
    Writes (h.invokeCode owner method d) := by
  have answer : Writes (do
      if d.ret.isVoid then Build.pushNull else Build.box d.ret
      Build.returnValue .object) :=
    .ite (.after Build.straight_pushNull fun _ => .returnValue _)
      (.after (Build.straight_box _) fun _ => .returnValue _)
  refine .after h.straight_loadTarget fun _ => .after (Build.straight_unpackArguments _ _) fun _ => ?_
  exact .ite (.after (Build.straight_invokeStatic _ _ _) fun _ => answer)
    (.after (Build.straight_invokeVirtual _ _ _) fun _ => answer)

theorem writes_getCode (h : Helper) (field : String) (t : JType) :
    Writes (h.getCode owner field t) := by
  have answer : Writes (do
      Build.box t
      Build.returnValue .object) :=
    .after (Build.straight_box t) fun _ => .returnValue _
  exact .after h.straight_loadTarget fun _ =>
    .ite (.after (Build.straight_field (by decide) (by decide) _ _ _ _ _) fun _ => answer)
      (.after (Build.straight_field (by decide) (by decide) _ _ _ _ _) fun _ => answer)

theorem writes_refuseCode (field : String) : Writes (refuseCode owner field) :=
  .after (Build.straight_newObject _) fun _ => .after Build.straight_dup fun _ =>
    .after (Build.straight_pushString _) fun _ => .after (Build.straight_invokeSpecial _ _ _)
      fun _ => .throwTop

theorem writes_setCode (h : Helper) (field : String) (t : JType) :
    Writes (h.setCode owner field t) := by
  have remember : Writes (do
      Build.loadThis
      Build.pushInt 1
      Build.putField h.name dirtyField (.primitive .boolean)
      Build.returnValue .void) :=
    .after Build.straight_loadThis fun _ => .after (Build.straight_pushInt _) fun _ =>
      .after (Build.straight_field (by decide) (by decide) _ _ _ _ _) fun _ => .returnValue _
  refine .after h.straight_loadTarget fun _ => .after (Build.straight_load _ _) fun _ =>
    .after (Build.straight_unbox t) fun _ => ?_
  exact .ite (.after (Build.straight_field (by decide) (by decide) _ _ _ _ _) fun _ => remember)
    (.after (Build.straight_field (by decide) (by decide) _ _ _ _ _) fun _ => remember)

theorem writes_isDirtyCode (h : Helper) : Writes h.isDirtyCode :=
  .after Build.straight_loadThis fun _ =>
    .after (Build.straight_field (by decide) (by decide) _ _ _ _ _) fun _ => .returnValue _

/-! ## Class files -/

theorem pushField_steps {access : Access} {name descriptor : String} {rest : Edit ClassFile Unit}
    (done : (do
      pushFields [← editPool (Member.named access name descriptor)]
      rest) c = .ok () c') :
    ∃ m q, Member.named access name descriptor c.pool = (m, q) ∧
      rest { c with pool := q, fields := c.fields ++ [m] } = .ok () c' := by
  obtain ⟨m, c₀, edited, done⟩ := step_bind_eq_ok.1 done
  obtain ⟨⟨⟩, c₁, pushed, done⟩ := step_bind_eq_ok.1 done
  obtain ⟨q, made, rfl⟩ := editPool_eq_ok edited
  cases pushed
  exact ⟨m, q, edit_change_eq_ok.1 made, done⟩

variable (options) in
theorem pushFieldAccess_enlarges {h : Helper} {field : String} {t : JType} {isFinal : Bool}
    (done : h.pushFieldAccess owner field t isFinal c = .ok () c') :
    Enlarges options owner c c' := by
  obtain ⟨m, q, flagged, done⟩ := pushField_steps done
  obtain ⟨⟨⟩, c₂, read, done⟩ := step_bind_eq_ok.1 done
  obtain ⟨⟨⟩, c₃, set, done⟩ := step_bind_eq_ok.1 done
  have flag : Enlarges options owner c _ :=
    .pushField options flagged fun _ => spelled_boolean.isFieldDescriptor
  have reader : Enlarges options owner _ c₂ :=
    .pushMethod options read (h.writes_getCode field t) fun _ => spelled_getDescriptor
  have writer : Enlarges options owner c₂ c₃ := by
    refine .pushMethod options set ?_ fun _ => spelled_setDescriptor
    split
    · exact writes_refuseCode field
    · exact h.writes_setCode field t
  have asker : Enlarges options owner c₃ c' :=
    .pushMethod options done h.writes_isDirtyCode fun _ => spelled_isDirtyDescriptor
  exact flag.trans (reader.trans (writer.trans asker))

/-- The class gains the field for the object that a helper works on, or nothing. -/
def AddsTarget (owner : ClassName) (c c' : ClassFile) : Prop :=
  c' = c ∨ ∃ m q, Member.named (.accPrivate ∪ .accFinal ∪ .accSynthetic) targetField
    (JType.reference owner).descriptor c.pool = (m, q) ∧
      c' = { c with pool := q, fields := c.fields ++ [m] }

/-- The members of a helper are its field, its constructor and the methods of its kind. -/
theorem pushMembers_steps {h : Helper} (done : h.pushMembers owner c = .ok () c') :
    ∃ c₁ c₂, AddsTarget owner c c₁ ∧
      pushMethod (builtMethod ⟨0⟩ "<init>" (helperDescriptor owner h.kind.isStatic)
        (h.constructorCode owner)) c₁ = .ok () c₂ ∧
      (match h.kind with
        | .field name t _ isFinal => h.pushFieldAccess owner name t isFinal
        | .call name d _ | .method name d _ =>
          pushMethod (builtMethod .accPublic "invoke" invokeDescriptor (h.invokeCode owner name d)))
        c₂ = .ok () c' := by
  unfold pushMembers at done
  dsimp only at done
  split at done
  · obtain ⟨m, q, made, done⟩ := pushField_steps done
    obtain ⟨⟨⟩, c₂, first, done⟩ := step_bind_eq_ok.1 done
    exact ⟨_, c₂, .inr ⟨m, q, made, rfl⟩, first, done⟩
  · obtain ⟨⟨⟩, c₂, first, done⟩ := step_bind_eq_ok.1 done
    exact ⟨c, c₂, .inl rfl, first, done⟩

variable (options) in
theorem pushMembers_enlarges {h : Helper} (done : h.pushMembers owner c = .ok () c') :
    Enlarges options owner c c' := by
  obtain ⟨c₁, c₂, target, made, done⟩ := pushMembers_steps done
  have first : Enlarges options owner c c₁ := by
    rcases target with rfl | ⟨m, q, named, rfl⟩
    · exact .refl _
    · have typed (spelled : owner.Spelled) : (JType.reference owner).Spelled :=
        .element (.reference spelled)
      exact .pushField options named fun spelled => (typed spelled).isFieldDescriptor
  have constructor : Enlarges options owner c₁ c₂ :=
    .pushMethod options made h.writes_constructorCode fun spelled =>
      spelled_helperDescriptor spelled _
  refine first.trans (constructor.trans ?_)
  cases kind : h.kind with
  | field name t isStatic isFinal =>
    rw [kind] at done
    exact pushFieldAccess_enlarges options done
  | call name d isStatic =>
    rw [kind] at done
    exact .pushMethod options done (h.writes_invokeCode name d) fun _ => spelled_invokeDescriptor
  | method name d isStatic =>
    rw [kind] at done
    exact .pushMethod options done (h.writes_invokeCode name d) fun _ => spelled_invokeDescriptor

/-- The class with the host of its nest. -/
def joinNest (host : ClassName) (c : ClassFile) : ClassFile :=
  (ClassFile.onPool (Pool.addClass host.internal) c).2.addAttribute "NestHost"
    (.nestHost (ClassFile.onPool (Pool.addClass host.internal) c).1)

variable (options) in
/-- Naming the host of a nest changes no member. -/
theorem joinNest_enlarges (host : ClassName) (c : ClassFile) :
    Enlarges options host c (joinNest host c) := by
  unfold joinNest ClassFile.onPool
  generalize hosted : Pool.addClass host.internal c.pool = added
  obtain ⟨index, p⟩ := added
  have grown := (Pool.grows_addClass _).made hosted
  unfold ClassFile.addAttribute
  dsimp only
  generalize named : Attribute.named "NestHost" (.nestHost index) p = attached
  obtain ⟨a, q⟩ := attached
  have whole := grown.trans ((Attribute.grows_named _ _).made named)
  constructor
  case keeps =>
    refine .of_attributes whole fun h b mem => ?_
    rcases List.mem_append.1 mem with mem | mem
    · exact (h.attributes b mem).mono whole.keeps
    · rw [List.mem_singleton.1 mem]
      exact Attribute.readable_named named (grown.sound h.pool) rfl rfl trivial
  case described =>
    exact fun _ _ before => ⟨fun m mem => (before.fields m mem).mono whole.keeps,
      fun m mem => (before.methods m mem).mono whole.keeps⟩

variable (options) in
/-- A helper is a bare class with its members, which then may join the nest of its owner. -/
theorem classFile_eq_ok {h : Helper} {majorVersion : UInt16} {nested : Bool}
    (made : h.classFile owner majorVersion nested = .ok c) :
    ∃ bare full, bare.IsBare options h.name.internal majorVersion ∧
      h.pushMembers owner bare = .ok () full ∧ c = if nested then joinNest owner full else full := by
  unfold classFile at made
  dsimp only at made
  generalize based : ClassFile.addInterface _ _ = base at made
  obtain ⟨position, bare⟩ := base
  dsimp only at made
  obtain ⟨⟨⟨⟩, full⟩, pushed, made⟩ := except_bind_eq_ok.1 made
  refine ⟨bare, full, ClassFile.bare_make options based, edit_run_eq_ok.1 pushed, ?_⟩
  cases nested <;>
  · cases made
    rfl

variable (options) in
/-- The class file of a helper is readable and has the name of the helper; it is described if its
owner can be spelled. -/
theorem readable_classFile {h : Helper} {majorVersion : UInt16}
    (version : ClassFile.leastVersion ≤ majorVersion) {nested : Bool}
    (made : h.classFile owner majorVersion nested = .ok c) :
    c.Readable options ∧ (owner.Spelled → c.Described) ∧ c.name = .ok (.ofText h.name.internal) := by
  obtain ⟨bare, full, start, pushed, rfl⟩ := classFile_eq_ok options made
  have members := pushMembers_enlarges options pushed
  have whole : Enlarges options owner bare (if nested then joinNest owner full else full) := by
    split
    · exact members.trans (joinNest_enlarges options owner full)
    · exact members
  refine ⟨whole.keeps.readable (start.readable version),
    fun spelled => whole.described spelled start.pool start.described, ?_⟩
  rw [ClassFile.name, whole.keeps.thisClass]
  exact Pool.className_mono whole.keeps.pool.keeps start.named

end Helper

end Weave

end Weft
