import Weft.Proofs.Weave.Callbacks
import Weft.Proofs.Weave.Conservation

/-!
# The fields of woven classes

A woven class has the fields that it had and behind them what its plan declares, holders right before
their fields. Fields and holders are planned under names that neither the class has nor what was
planned before; but a field may be planned behind a holder under its name. So the fields of a woven
class are distinct, if those of the class are, exactly when no such field has the type of the holder.
-/

namespace Weft

variable {options : DecodeOptions} {p q : Pool} {σ : Type}

/-- The name and the descriptor of the member. -/
def Member.key? (p : Pool) (m : Member) : Option (String × String) := do
  return (← (p.utf8 m.name).toOption, ← (p.utf8 m.descriptor).toOption)

theorem Member.key?_eq_some {m : Member} {name descriptor : String}
    (h : m.isNamed p name descriptor = true) : m.key? p = some (name, descriptor) := by
  obtain ⟨named, typed⟩ := Member.isNamed_iff.1 h
  rw [Member.key?, named, typed]
  rfl

theorem Member.key?_mono {m : Member} (named : (∃ name, p.utf8 m.name = .ok name) ∧
    ∃ descriptor, p.utf8 m.descriptor = .ok descriptor) (grown : p.Extends q) :
    m.key? q = m.key? p := by
  obtain ⟨⟨name, named⟩, descriptor, typed⟩ := named
  have known : m.isNamed p name descriptor = true := Member.isNamed_iff.2 ⟨named, typed⟩
  have still : m.isNamed q name descriptor = true :=
    Member.isNamed_iff.2 ⟨Pool.utf8_mono grown named, Pool.utf8_mono grown typed⟩
  rw [Member.key?_eq_some known, Member.key?_eq_some still]

/-- The names and the descriptors of the fields. -/
def ClassFile.fieldKeys (c : ClassFile) : List (Option (String × String)) :=
  c.fields.map (·.key? c.pool)

theorem ClassFile.fieldKeys_mono {c : ClassFile} (decoded : c.Decoded options)
    (grown : c.pool.Extends q) : c.fields.map (·.key? q) = c.fieldKeys :=
  List.map_congr_left fun m mem =>
    Member.key?_mono (decoded.names m (List.mem_append_left _ mem)) grown

/-- The site of a class lists its fields by their names. -/
theorem ClassSite.fieldTypes_of_ofBytes {decoding : Nat} {image : Bytes} {s : ClassSite}
    (h : ofBytes options decoding image = .ok s) :
    List.Forall₂ (fun m t => s.pool.utf8 m.name = .ok t.1) s.classFile.fields s.fieldTypes := by
  obtain ⟨c, -, -, -, tells⟩ := ofBytes_eq_ok h
  rw [pool, tells.classFile]
  exact (forall₂_of_memberTypes tells.fieldTypes).imp fun _ _ named => named.1

namespace Weave

theorem holderName_inj {field field' : String} (h : holderName field = holderName field') :
    field = field' := (String.append_right_inj _).1 h

theorem holderName_ne (field : String) : holderName field ≠ field := by
  intro same
  have lengths := congrArg String.length same
  rw [holderName, String.length_append] at lengths
  have : "$cw$init$".length = 9 := by decide
  omega

namespace PlannedField

variable {f g : PlannedField} {fields : List PlannedField}

/-- The names and the descriptors of what is declared for the field. -/
def keys (f : PlannedField) : List (String × String) :=
  f.init.holder?.toList.map (·, JType.string.descriptor) ++ [(f.name, f.type.descriptor)]

theorem mem_keys {key : String × String} : key ∈ f.keys ↔
    (∃ holder, f.init.holder? = some holder ∧ key = (holder, JType.string.descriptor)) ∨
      key = (f.name, f.type.descriptor) := by
  simp [keys, eq_comm]

/-- What is declared for a field has the names of the field and of its holder. -/
theorem IsDeclared.keys {group : List Member} (h : f.IsDeclared p group) :
    group.map (·.key? p) = f.keys.map some := by
  obtain ⟨m, field, h⟩ := h
  have own := Member.key?_eq_some field.named
  cases init : f.init with
  | callback token holder =>
    rw [init] at h
    obtain ⟨x, rfl, -, held, -⟩ := h
    simp [PlannedField.keys, init, FieldInit.holder?, own, Member.key?_eq_some held.named]
  | default | store value | constant value =>
    rw [init] at h
    obtain ⟨rfl, -⟩ := h
    simp [PlannedField.keys, init, FieldInit.holder?, own]

theorem keys_flatten {groups : List (List Member)}
    (h : List.Forall₂ (IsDeclared p) fields groups) :
    groups.flatten.map (·.key? p) = (fields.flatMap PlannedField.keys).map some := by
  induction h with
  | nil => rfl
  | cons first _ ih =>
    rw [List.flatten_cons, List.map_append, ih, first.keys, List.flatMap_cons, List.map_append]

/-- Holders are named after their fields. -/
theorem Carries.holder {R : String → Callback σ → Prop} {d : FieldDeclaration σ}
    (h : f.Carries R d) {holder : String} (held : f.init.holder? = some holder) :
    holder = holderName f.name := by
  obtain ⟨-, name, -, init⟩ := h
  split at init
  · obtain ⟨token, computed, -⟩ := init
    rw [computed] at held
    cases held
    rw [name]
  · cases same : f.init <;> rw [same] at held init <;> cases held
    cases init

/-- The holder of the field is named after it. -/
def NamesHolder (f : PlannedField) : Prop :=
  ∀ holder, f.init.holder? = some holder → holder = holderName f.name

/-- The other field is not declared as the holder of this one is. -/
def Spares (f g : PlannedField) : Prop :=
  ∀ holder, f.init.holder? = some holder → g.name = holder →
    g.type.descriptor ≠ JType.string.descriptor

theorem NamesHolder.spares_self (named : f.NamesHolder) : f.Spares f := fun holder held same =>
  absurd (named holder held ▸ same).symm (holderName_ne f.name)

/-- Of what is planned apart, only the holder of the earlier can be declared again. -/
theorem Apart.disjoint_keys_iff (apart : f.Apart g) (named : f.NamesHolder)
    (named' : g.NamesHolder) : List.Disjoint f.keys g.keys ↔ f.Spares g := by
  constructor
  case mp =>
    intro disjoint holder held same typed
    refine disjoint (mem_keys.2 (.inl ⟨holder, held, rfl⟩)) (mem_keys.2 (.inr ?_))
    rw [same, typed]
  case mpr =>
    intro spares key first second
    rcases mem_keys.1 first with ⟨holder, held, rfl⟩ | rfl
    · rcases mem_keys.1 second with ⟨holder', held', same⟩ | same
      · cases same
        exact apart.1 (holderName_inj ((named holder held).symm.trans (named' holder held')))
      · obtain ⟨name, typed⟩ := Prod.mk.inj same
        exact spares holder held name.symm typed.symm
    · rcases mem_keys.1 second with ⟨holder', held', same⟩ | same
      · exact apart.2 holder' held' (Prod.mk.inj same).1
      · exact apart.1 (Prod.mk.inj same).1

theorem NamesHolder.nodup_keys (named : f.NamesHolder) : f.keys.Nodup := by
  unfold PlannedField.keys
  cases held : f.init.holder? with
  | none => exact List.nodup_singleton _
  | some holder =>
    refine List.nodup_cons.2 ⟨fun mem => ?_, List.nodup_singleton _⟩
    have same := (Prod.mk.inj (List.mem_singleton.1 mem)).1
    exact holderName_ne f.name ((named holder held).symm.trans same)

theorem nodup_keys_iff (apart : fields.Pairwise Apart) (named : ∀ f ∈ fields, f.NamesHolder) :
    (fields.flatMap keys).Nodup ↔ ∀ f ∈ fields, ∀ g ∈ fields, f.Spares g := by
  rw [List.nodup_flatMap]
  constructor
  case mp =>
    rintro ⟨-, disjoint⟩
    refine List.Pairwise.forall_of_forall_of_flip (fun f mem => (named f mem).spares_self) ?_ ?_
    · refine (disjoint.and apart).imp_of_mem fun mem mem' ⟨disjoint, apart⟩ => ?_
      exact (apart.disjoint_keys_iff (named _ mem) (named _ mem')).1 disjoint
    · exact apart.imp fun apart holder held same => absurd same (apart.2 holder held)
  case mpr =>
    refine fun spares => ⟨fun f mem => (named f mem).nodup_keys, apart.imp_of_mem ?_⟩
    intro f g mem mem' apart
    exact (apart.disjoint_keys_iff (named f mem) (named g mem')).2 (spares f mem g mem')

end PlannedField

namespace Plan

variable {plan : Plan} {owner : ClassName} {c c' : ClassFile}

variable (options) in
/-- Weaving appends what is declared for the fields of the plan, and drops nothing. -/
theorem keeps_of_weave (h : plan.weave owner c = .ok () c') (sound : c.pool.Sound) :
    Keeps options c c' ∧ ∃ groups, c'.fields = c.fields ++ groups.flatten ∧
      ∀ r, c'.pool.Extends r → r.size < 65536 →
        List.Forall₂ (PlannedField.IsDeclared r) plan.fields groups := by
  obtain ⟨c₁, c₂, c₃, c₄, c₅, c₆, stages⟩ := stages_of_weave options h sound
  exact ⟨stages.keeps, stages.fields sound⟩

/-- No field of the plan is declared as the holder of another is. -/
def SparesHolders (plan : Plan) : Prop := ∀ f ∈ plan.fields, ∀ g ∈ plan.fields, f.Spares g

variable {composition : Composition σ} {weaving : Options} {l l' : Ledger σ} {image : Bytes}
  {decoding again : Nat} {s : ClassSite} {images : WovenImages}

theorem namesHolder_of_ofComposition (planned : ofComposition weaving composition l = .ok plan l') :
    ∀ f ∈ plan.fields, f.NamesHolder := by
  intro f mem holder held
  obtain ⟨given, -, registers⟩ := registers_of_ofComposition planned
  obtain ⟨d, -, carries⟩ := forall₂_mem_right registers.carries.fields mem
  exact carries.holder held

/-- What a plan makes of an image is the image of the woven class. -/
theorem woven_of_apply {s₀ : ClassSite}
    (site : ClassSite.ofBytes options decoding image = .ok s₀)
    (site' : ClassSite.ofBytes options again image = .ok s) (applied : plan.apply s = .ok images) :
    ∃ c c' q, ClassFile.ofBytes options image = .ok c ∧ s₀.Lists c ∧
      plan.weave s.name c = .ok () c' ∧ c'.pool.Extends q ∧ q.size < 65536 ∧
      ClassFile.ofBytes options images.primary = .ok { c' with pool := q } := by
  obtain ⟨c, decoded, lists⟩ := ClassSite.lists_of_ofBytes site
  cases site'.symm.trans (ClassSite.ofBytes_again site again)
  obtain ⟨c', woven, written, -⟩ := apply_eq_ok applied
  rw [lists.classFile] at woven
  have readable := (ClassFile.decoded_of_ofBytes decoded).readable
  have keeps := (keeps_of_weave options woven readable.pool).1
  obtain ⟨small, q, same, read⟩ := ClassFile.ofBytes_toBytes (keeps.readable readable) written
  exact ⟨c, c', q, decoded, lists, woven, .of_entries same, by rwa [Pool.size, same], read⟩

/-- What is declared for the fields of the plan has none of the names of the class's fields. -/
theorem NamesFields.disjoint {fields : List PlannedField} (h : NamesFields s fields)
    (listed : List.Forall₂ (fun m t => s.pool.utf8 m.name = .ok t.1) s.classFile.fields
      s.fieldTypes) :
    List.Disjoint s.classFile.fieldKeys ((fields.flatMap PlannedField.keys).map some) := by
  intro key old added
  obtain ⟨m, mem, rfl⟩ := List.mem_map.1 old
  obtain ⟨⟨name, descriptor⟩, declared, same⟩ := List.mem_map.1 added
  obtain ⟨f, planned, declared⟩ := List.mem_flatMap.1 declared
  obtain ⟨t, typed, known⟩ := forall₂_mem_left listed mem
  have own : t.1 = name := by
    have known : s.classFile.pool.utf8 m.name = .ok t.1 := known
    rw [Member.key?, known] at same
    cases descriptor? : (s.classFile.pool.utf8 m.descriptor).toOption with
    | none =>
      rw [descriptor?] at same
      cases same
    | some d =>
      rw [descriptor?] at same
      cases same
      rfl
  rcases PlannedField.mem_keys.1 declared with ⟨holder, held, same⟩ | same
  · cases same
    exact (h.free f planned).holder name held t typed own
  · cases same
    exact (h.free f planned).name t typed own

/-- The fields of a woven class are those that it had, and what is declared behind them. If its own
are distinct, all are exactly if no field is declared as the holder of another is. -/
theorem fieldKeys_of_apply (planned : ofComposition weaving composition l = .ok plan l')
    (site : ClassSite.ofBytes options decoding image = .ok composition.site)
    (site' : ClassSite.ofBytes options again image = .ok s) (applied : plan.apply s = .ok images) :
    ∃ c w, ClassFile.ofBytes options image = .ok c ∧
      ClassFile.ofBytes options images.primary = .ok w ∧
      w.fieldKeys = c.fieldKeys ++ (plan.fields.flatMap PlannedField.keys).map some ∧
      (c.fieldKeys.Nodup → (w.fieldKeys.Nodup ↔ plan.SparesHolders)) := by
  obtain ⟨c, c', q, decoded, lists, woven, grown, small, read⟩ := woven_of_apply site site' applied
  obtain ⟨given, -, registers⟩ := registers_of_ofComposition planned
  have whole := ClassFile.decoded_of_ofBytes decoded
  obtain ⟨keeps, groups, fields, declared⟩ := keeps_of_weave options woven whole.readable.pool
  have keys : ClassFile.fieldKeys { c' with pool := q } =
      c.fieldKeys ++ (plan.fields.flatMap PlannedField.keys).map some := by
    show c'.fields.map (·.key? q) = _
    rw [fields, List.map_append, ClassFile.fieldKeys_mono whole (keeps.pool.keeps.trans grown),
      PlannedField.keys_flatten (declared q grown small)]
  refine ⟨c, _, decoded, read, keys, fun own => ?_⟩
  have disjoint := registers.names.disjoint (ClassSite.fieldTypes_of_ofBytes site)
  rw [lists.classFile] at disjoint
  have named := namesHolder_of_ofComposition planned
  calc (ClassFile.fieldKeys { c' with pool := q }).Nodup
    _ ↔ (plan.fields.flatMap PlannedField.keys).Nodup := by
      rw [keys, List.nodup_append', List.nodup_map_iff (Option.some_injective _)]
      exact ⟨fun h => h.2.1, fun h => ⟨own, h, disjoint⟩⟩
    _ ↔ plan.SparesHolders := PlannedField.nodup_keys_iff registers.names.apart named

/-- The plan that evaluation comes to, and something of it. -/
theorem exists_ofComposition {α : Type} {f : Plan → α} {a : α}
    (h : (match ofComposition weaving composition l with
      | .ok plan _ => some (f plan)
      | .error .. => none) = some a) :
    ∃ plan l', ofComposition weaving composition l = .ok plan l' ∧ f plan = a := by
  cases planned : ofComposition weaving composition l with
  | ok plan l' =>
    rw [planned] at h
    exact ⟨plan, l', rfl, Option.some.inj h⟩
  | error e l' =>
    rw [planned] at h
    cases h

/-- Asks for a computed static field `x` and then for a string field under the name of its holder. -/
def shadowingComposition : Composition Unit where
  site := plainSite
  additions := [.addField ⟨.accStatic, "x", .primitive .int, .computed fun _ => pure .null⟩,
    .addField ⟨.accStatic, holderName "x", .string, .none⟩]

/-- The holder of `x` is declared twice. -/
theorem fieldKeys_shadowing : ∃ plan ledger,
    ofComposition {} shadowingComposition ⟨{ number := 1 }, 1⟩ = .ok plan ledger ∧
      ∀ images, plan.apply plainSite = .ok images → ∃ c w,
        ClassFile.ofBytes {} plainImage = .ok c ∧ ClassFile.ofBytes {} images.primary = .ok w ∧
          c.fieldKeys.Nodup ∧ ¬ w.fieldKeys.Nodup := by
  obtain ⟨plan, ledger, planned, declared⟩ : ∃ plan ledger,
      ofComposition {} shadowingComposition ⟨{ number := 1 }, 1⟩ = .ok plan ledger ∧
        plan.fields.flatMap PlannedField.keys = [("$cw$init$x", "Ljava/lang/String;"), ("x", "I"),
          ("$cw$init$x", "Ljava/lang/String;")] := exists_ofComposition (by decide +kernel)
  refine ⟨plan, ledger, planned, fun images applied => ?_⟩
  obtain ⟨c, w, decoded, woven, keys, -⟩ :=
    fieldKeys_of_apply planned ofBytes_plainImage ofBytes_plainImage applied
  refine ⟨c, w, decoded, woven, ?_, ?_⟩
  · have bare : plainSite.classFile.fields = [] := by decide +kernel
    obtain ⟨c', decoded', lists⟩ := ClassSite.lists_of_ofBytes ofBytes_plainImage
    cases decoded.symm.trans decoded'
    rw [ClassFile.fieldKeys, ← lists.classFile, bare]
    exact List.nodup_nil
  · intro distinct
    rw [keys, declared] at distinct
    exact absurd (List.nodup_append'.1 distinct).2.1 (by decide)

end Plan

end Weave

end Weft
