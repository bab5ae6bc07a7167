import Weft.Proofs.Weave.Fields

/-!
# Holders hold their tokens

The holder of a computed field is a constant of the woven class, and the first field of its name: no
field of the class has the name, and none that is planned before. So what woven code reads under
that name is the token.
-/

namespace Weft

variable {p : Pool}

/-! ## Constant fields -/

/-- The constant that the field holds from the start. -/
def Member.constant? (p : Pool) (m : Member) : Option Literal :=
  m.attributes.findSome? fun a => match a.body with
    | .constantValue index => (p.literal index).toOption
    | _ => none

/-- What the first field of that name and descriptor holds from the start, if it is static. -/
def ClassFile.constant? (c : ClassFile) (name descriptor : String) : Option Literal :=
  (c.fields.find? (·.isNamed c.pool name descriptor)).bind fun m =>
    if m.access.isStatic then m.constant? c.pool else none

namespace Weave

namespace PlannedField

variable {f g : PlannedField}

theorem IsConstant.constant? {value : Literal} {m : Member} (h : IsConstant p value m) :
    m.constant? p = some value := by
  obtain ⟨a, index, only, -, body, held⟩ := h
  simp [Member.constant?, only, body, held, Except.toOption]

/-- A member that is declared for a field is the field, with its flags, or the holder of it. -/
theorem IsDeclared.of_key {group : List Member} (h : f.IsDeclared p group) {m : Member}
    (mem : m ∈ group) {key : String × String} (named : m.key? p = some key) :
    (key = (f.name, f.type.descriptor) ∧ m.access = f.access) ∨
      ∃ holder, f.init.holder? = some holder ∧ key = (holder, JType.string.descriptor) := by
  obtain ⟨own, field, h⟩ := h
  have of_own (same : m = own) : key = (f.name, f.type.descriptor) ∧ m.access = f.access := by
    subst same
    exact ⟨Option.some.inj (named.symm.trans (Member.key?_eq_some field.named)), field.access⟩
  split at h
  · obtain ⟨rfl, -⟩ := h
    exact .inl (of_own (List.mem_singleton.1 mem))
  · obtain ⟨rfl, -⟩ := h
    exact .inl (of_own (List.mem_singleton.1 mem))
  · obtain ⟨rfl, -⟩ := h
    exact .inl (of_own (List.mem_singleton.1 mem))
  · rename_i token holder init
    obtain ⟨x, rfl, -, held, -⟩ := h
    rcases List.mem_cons.1 mem with rfl | mem
    · exact .inr ⟨holder, by rw [init]; rfl,
        Option.some.inj (named.symm.trans (Member.key?_eq_some held.named))⟩
    · exact .inl (of_own (List.mem_singleton.1 mem))

/-- Of all that is declared, the holder of a field is the first of its name. -/
theorem find?_holder {fields : List PlannedField} {groups : List (List Member)}
    (declared : List.Forall₂ (IsDeclared p) fields groups) (apart : fields.Pairwise Apart)
    (named : ∀ f ∈ fields, f.NamesHolder)
    (planned : f ∈ fields) {token holder : String} (computed : f.init = .callback token holder) :
    ∃ m, groups.flatten.find? (·.isNamed p holder JType.string.descriptor) = some m ∧
      IsField p holderAccess holder JType.string.descriptor m ∧ IsConstant p (.string token) m := by
  induction declared with
  | nil => cases planned
  | @cons g group fields groups first rest ih =>
    rw [List.pairwise_cons] at apart
    rcases List.mem_cons.1 planned with rfl | later
    · obtain ⟨m, -, first⟩ := first
      rw [computed] at first
      obtain ⟨h, rfl, -, held, constant⟩ := first
      exact ⟨h, List.find?_cons_of_pos held.named, held, constant⟩
    · have own : holder = holderName f.name := named f planned holder (by rw [computed]; rfl)
      obtain ⟨other, other'⟩ := apart.1 f later
      have before : ∀ m ∈ group, ¬ m.isNamed p holder JType.string.descriptor = true := by
        intro m mem same
        rcases first.of_key mem (Member.key?_eq_some same) with ⟨same, -⟩ | ⟨holder', held, same⟩
        · exact other' holder (by rw [computed]; rfl) (Prod.mk.inj same).1.symm
        · cases same
          exact other (holderName_inj ((named g List.mem_cons_self holder held).symm.trans own))
      rw [List.flatten_cons, List.find?_append, List.find?_eq_none.2 before, Option.none_or]
      exact ih apart.2 (fun f mem => named f (List.mem_cons_of_mem g mem)) later

end PlannedField

/-- The holder of a planned field is a constant of the woven class, and holds the token. -/
theorem Plan.NamesFields.constant?_holder {s : ClassSite} {fields : List PlannedField}
    (h : NamesFields s fields)
    (named : ∀ f ∈ fields, f.NamesHolder)
    (listed : List.Forall₂ (fun m t => s.pool.utf8 m.name = .ok t.1) s.classFile.fields s.fieldTypes)
    {w : ClassFile} (grown : s.pool.Extends w.pool) {groups : List (List Member)}
    (appended : w.fields = s.classFile.fields ++ groups.flatten)
    (declared : List.Forall₂ (PlannedField.IsDeclared w.pool) fields groups) {f : PlannedField}
    (planned : f ∈ fields) {token holder : String} (computed : f.init = .callback token holder) :
    w.constant? holder JType.string.descriptor = some (.string token) := by
  have older : ∀ m ∈ s.classFile.fields, ¬ m.isNamed w.pool holder JType.string.descriptor = true := by
    intro m mem same
    obtain ⟨t, typed, known⟩ := forall₂_mem_left listed mem
    have same := (Pool.utf8_mono grown known).symm.trans (Member.isNamed_iff.1 same).1
    exact (h.free f planned).holder holder (by rw [computed]; rfl) t typed (Except.ok.inj same)
  obtain ⟨m, found, field, constant⟩ :=
    PlannedField.find?_holder declared h.apart named planned computed
  rw [ClassFile.constant?, appended, List.find?_append, List.find?_eq_none.2 older, Option.none_or,
    found, Option.bind_some, if_pos (by rw [field.access]; decide), constant.constant?]

end Weave

end Weft
