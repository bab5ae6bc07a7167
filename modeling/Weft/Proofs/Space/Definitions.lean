import Weft.Proofs.Signature.Descriptors
import Weft.Proofs.Steps
import Weft.Space.ClassSpace

/-!
# What a definition leaves behind

A class is defined under the name that its image gives it, in a space that defines in place, and
under another name, which no class spells that way itself, in a space that makes new classes. What
was defined before stays defined.
-/

namespace Weft

/-! ## Names -/

/-- The name under which a space of the mode defines a class of that name. -/
def DefineMode.nameFor (mode : DefineMode) (base : ClassName) (id : UInt64) : ClassName :=
  match mode with
  | .inPlace => base
  | .newClass => ClassSpace.newName base id

namespace ClassSpace

theorem newName_ne {base : ClassName} (dotless : '.' ∉ base.internal.toList) (id : UInt64) :
    newName base id ≠ base := by
  intro same
  have spelled : newName base id = ⟨base.internal ++ "$Defined" ++ toString id⟩ :=
    ClassName.ofText_numbered dotless (by decide) id.toNat
  have lengths := congrArg (fun name => name.internal.length) (spelled.symm.trans same)
  simp only [String.length_append] at lengths
  have : "$Defined".length = 8 := by decide
  omega

/-- Classes keep their names in spaces that define in place, and in no other. -/
theorem nameFor_eq_iff {mode : DefineMode} {base : ClassName}
    (dotless : '.' ∉ base.internal.toList) (id : UInt64) :
    mode.nameFor base id = base ↔ mode = .inPlace := by
  cases mode with
  | inPlace => exact iff_of_true rfl rfl
  | newClass => exact iff_of_false (newName_ne dotless id) (by decide)

/-! ## Definitions -/

variable {s s' : ClassSpace} {image : Bytes} {previous? : Option Handle} {handle : Handle}

/-- The image is taken as that of a class of the name. -/
def Takes (image : Bytes) (name : ClassName) : Prop := ∃ c, check image = .ok c ∧ c.name = .ok name

/-- What the definition of a class leaves behind. -/
structure Defines (s : ClassSpace) (image : Bytes) (handle : Handle) (s' : ClassSpace) : Prop where
  mode : s'.mode = s.mode
  name : ∃ base, Takes image base ∧ handle.name = s.mode.nameFor base handle.id
  classes : ∃ d, d.handle = handle ∧ (s.mode = .inPlace → d.image = image) ∧
    s'.classes = s.classes.insert handle.name d

theorem check_of_takes {name : ClassName} (h : Takes image name) :
    ∃ c, ClassFile.ofBytes {} image = .ok c ∧ c.name = .ok name := by
  obtain ⟨c, checked, named⟩ := h
  obtain ⟨c', decoded, checked⟩ := except_bind_eq_ok.1 checked
  obtain ⟨⟨⟩, -, checked⟩ := except_bind_eq_ok.1 checked
  cases checked
  exact ⟨c, except_mapError_eq_ok decoded, named⟩

/-! ### What the steps of a definition do -/

theorem orRejected_eq_ok {α : Type} {r : Except Error α} {a : α} :
    orRejected r = .ok a ↔ r = .ok a := by
  unfold orRejected
  cases r with
  | error e => exact iff_of_false nofun nofun
  | ok a => exact Iff.rfl

/-- The handle that a class of the name gets next from one who knows `previous?`, and the space
behind it. -/
inductive Next (s : ClassSpace) (name : ClassName) : Option Handle → Handle → ClassSpace → Prop
  | first (undefined : s.get? name = none) :
    Next s name none ⟨name, 0, s.nextId⟩ { s with nextId := s.nextId + 1 }
  | again {d : Definition} (defined : s.get? name = some d) :
    Next s name (some d.handle) ⟨name, d.handle.generation + 1, d.handle.id⟩ s

theorem nextHandle_eq_ok {name : ClassName} :
    nextHandle name previous? s = .ok handle s' ↔ s.Next name previous? handle s' := by
  unfold nextHandle
  rw [step_get_bind]
  constructor
  case mp =>
    intro h
    cases found : s.get? name with
    | none =>
      rw [found] at h
      cases previous? with
      | none =>
        cases h
        exact .first found
      | some previous => cases h
    | some d =>
      rw [found] at h
      cases previous? with
      | none => cases h
      | some previous =>
        dsimp only at h
        split at h
        · rename_i same
          cases h
          exact same ▸ .again found
        · cases h
  case mpr =>
    rintro (undefined | ⟨defined⟩)
    · rw [undefined]
      rfl
    · rw [defined]
      dsimp only
      rw [if_pos rfl]
      rfl

/-- The space in which the definition is the latest of its class. -/
def put (s : ClassSpace) (d : Definition) : ClassSpace :=
  { s with classes := s.classes.insert d.handle.name d }

theorem defineInPlace_eq_ok : defineInPlace image previous? s = .ok handle s' ↔
    ∃ c name site t, check image = .ok c ∧ c.name = .ok name ∧ siteOf image c = .ok site ∧
      s.Next name previous? handle t ∧ s' = t.put ⟨handle, image, site⟩ := by
  constructor
  case mp =>
    intro h
    obtain ⟨c, t, read, h⟩ := step_bind_eq_ok.1 h
    obtain ⟨checked, rfl⟩ := edit_lift_eq_ok.1 read
    obtain ⟨name, t, known, h⟩ := step_bind_eq_ok.1 h
    obtain ⟨named, rfl⟩ := edit_lift_eq_ok.1 known
    obtain ⟨site, t, shown, h⟩ := step_bind_eq_ok.1 h
    obtain ⟨sited, rfl⟩ := edit_lift_eq_ok.1 shown
    obtain ⟨next, t, given, h⟩ := step_bind_eq_ok.1 h
    cases h
    exact ⟨c, name, site, t, checked, orRejected_eq_ok.1 named, sited, nextHandle_eq_ok.1 given, rfl⟩
  case mpr =>
    rintro ⟨c, name, site, t, checked, named, sited, next, rfl⟩
    refine step_bind_eq_ok.2 ⟨c, s, edit_lift_eq_ok.2 ⟨checked, rfl⟩, ?_⟩
    refine step_bind_eq_ok.2 ⟨name, s, edit_lift_eq_ok.2 ⟨orRejected_eq_ok.2 named, rfl⟩, ?_⟩
    refine step_bind_eq_ok.2 ⟨site, s, edit_lift_eq_ok.2 ⟨sited, rfl⟩, ?_⟩
    exact step_bind_eq_ok.2 ⟨handle, t, nextHandle_eq_ok.2 next, rfl⟩

/-- The definition of a class under a new name. -/
structure New (s : ClassSpace) (image : Bytes) (c : ClassFile) (base : ClassName)
    (d : Definition) : Prop where
  checked : check image = .ok c
  named : c.name = .ok base
  handle : d.handle = ⟨newName base s.nextId, 0, s.nextId⟩
  renamed : ∃ pool, c.pool.rename c.thisClass d.handle.name.internal = .ok pool ∧
    ({ c with pool } : ClassFile).toBytes = .ok d.image ∧
    siteOf d.image { c with pool } = .ok d.site

theorem defineNew_eq_ok (h : defineNew image s = .ok handle s') :
    ∃ c base d, s.New image c base d ∧ d.handle = handle ∧
      s' = { s with nextId := s.nextId + 1 }.put d := by
  obtain ⟨c, t, read, h⟩ := step_bind_eq_ok.1 h
  obtain ⟨checked, rfl⟩ := edit_lift_eq_ok.1 read
  obtain ⟨base, t, known, h⟩ := step_bind_eq_ok.1 h
  obtain ⟨named, rfl⟩ := edit_lift_eq_ok.1 known
  obtain ⟨id, t, numbered, h⟩ := step_bind_eq_ok.1 h
  cases numbered
  obtain ⟨pool, t, edited, h⟩ := step_bind_eq_ok.1 h
  obtain ⟨renamed, rfl⟩ := edit_lift_eq_ok.1 edited
  obtain ⟨image', t, made, h⟩ := step_bind_eq_ok.1 h
  obtain ⟨written, rfl⟩ := edit_lift_eq_ok.1 made
  obtain ⟨site, t, shown, h⟩ := step_bind_eq_ok.1 h
  obtain ⟨sited, rfl⟩ := edit_lift_eq_ok.1 shown
  cases h
  exact ⟨c, base, ⟨⟨newName base s.nextId, 0, s.nextId⟩, image', site⟩,
    ⟨checked, orRejected_eq_ok.1 named, rfl, pool, orRejected_eq_ok.1 renamed,
      except_mapError_eq_ok written, sited⟩, rfl, rfl⟩

theorem define_inPlace (inPlace : s.mode = .inPlace) (image : Bytes) (previous? : Option Handle) :
    define image previous? s = defineInPlace image previous? s := by
  unfold define
  rw [step_get_bind, inPlace]

theorem define_newClass (newClass : s.mode = .newClass) (image : Bytes)
    (previous? : Option Handle) : define image previous? s = defineNew image s := by
  unfold define
  rw [step_get_bind, newClass]

theorem Next.keeps {name : ClassName} (h : s.Next name previous? handle s') :
    handle.name = name ∧ s'.mode = s.mode ∧ s'.classes = s.classes := by
  cases h with
  | first => exact ⟨rfl, rfl, rfl⟩
  | again => exact ⟨rfl, rfl, rfl⟩

theorem define_eq_ok (h : define image previous? s = .ok handle s') :
    s.Defines image handle s' := by
  cases mode : s.mode with
  | inPlace =>
    rw [define_inPlace mode] at h
    obtain ⟨c, name, site, t, checked, named, -, next, rfl⟩ := defineInPlace_eq_ok.1 h
    obtain ⟨same, kept, classes⟩ := next.keeps
    refine ⟨kept, ⟨name, ⟨c, checked, named⟩, ?_⟩, ⟨handle, image, site⟩, rfl, fun _ => rfl, ?_⟩
    · rw [mode]
      exact same
    · show t.classes.insert handle.name _ = _
      rw [classes]
  | newClass =>
    rw [define_newClass mode] at h
    obtain ⟨c, base, d, new, rfl, rfl⟩ := defineNew_eq_ok h
    refine ⟨rfl, ⟨base, ⟨c, new.checked, new.named⟩, ?_⟩, d, rfl, fun inPlace => ?_, rfl⟩
    · rw [mode, new.handle]
      rfl
    · rw [mode] at inPlace
      cases inPlace

namespace Defines

theorem get?_eq (h : s.Defines image handle s') (name : ClassName) :
    (∃ d, s'.get? handle.name = some d ∧ d.handle = handle ∧
      (s.mode = .inPlace → d.image = image)) ∧
      (handle.name ≠ name → s'.get? name = s.get? name) := by
  obtain ⟨d, named, same, classes⟩ := h.classes
  unfold ClassSpace.get?
  rw [classes]
  refine ⟨⟨d, Std.HashMap.getElem?_insert_self, named, same⟩, fun other => ?_⟩
  rw [Std.HashMap.getElem?_insert, if_neg (by simpa using other)]

/-- What was defined stays defined. -/
theorem isSome_get? (h : s.Defines image handle s') {name : ClassName}
    (before : (s.get? name).isSome) : (s'.get? name).isSome := by
  obtain ⟨⟨d, found, -⟩, others⟩ := h.get?_eq name
  by_cases same : handle.name = name
  · rw [← same, found]
    rfl
  · rwa [others same]

end Defines

end ClassSpace

end Weft
