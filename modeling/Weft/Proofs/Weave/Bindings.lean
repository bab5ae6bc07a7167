import Weft.Proofs.Weave.AccessorMaps
import Weft.Proofs.Weave.Accessors
import Weft.Proofs.Weave.Presentation

/-!
# What the maps of an added method bind

An added method hands over two maps. Each field that it declares to use is bound to the helper for
this very field. Methods are bound by their names alone, so of methods that share a name only the
last one is found: all of them are just if no two that share a name have different descriptors. A
plan is made for the others as well.
-/

namespace Weft

variable {options : DecodeOptions} {σ : Type} {p q : Pool} {owner : ClassName}

/-! ## Methods that are read back -/

/-- The code of the method comes to a call of the bridge, and has made something until then. -/
def Member.AsksBridge (m : Member) (p : Pool) (entry : String) (others : Nat)
    (P : Weave.Making → Prop) : Prop :=
  ∃ b before call after s pushes, m.body? p = some b ∧ b.instructions = before ++ call :: after ∧
    before.foldlM (Weave.advance p) .start = some s ∧ P s ∧
      Weave.effect? p call = some (.hand entry others pushes)

theorem Member.AsksBridge.mono {m : Member} {entry : String} {others : Nat}
    {P P' : Weave.Making → Prop} (h : m.AsksBridge p entry others P) (le : ∀ s, P s → P' s) :
    m.AsksBridge p entry others P' := by
  obtain ⟨b, before, call, after, s, pushes, read, split, reached, holds, called⟩ := h
  exact ⟨b, before, call, after, s, pushes, read, split, reached, le s holds, called⟩

theorem CodeAttribute.IsBuilt.asks {m : Member} {c : CodeAttribute} {locals : UInt16}
    {code : Build Unit} {entry : String} {others : Nat} {P : Weave.Making → Prop}
    (h : c.IsBuilt locals code q) (coded : m.code? = some c)
    (asks : Weave.Asks code .start entry others P) (small : q.size < 65536) :
    m.AsksBridge q entry others P := by
  obtain ⟨p, made, sound, ran, grown, reread⟩ := h.reread small
  obtain ⟨before, call, after, wrote, asked⟩ := asks _ _ ran
  obtain ⟨⟨s, reached, holds⟩, pushes, called⟩ := asked sound q grown small
  obtain ⟨b, read, split⟩ := reread _ wrote
  exact ⟨b, before, call, after, s, pushes, Member.body?_eq_some coded read, split, reached, holds,
    called⟩

namespace Weave

/-! ## What is bound -/

section Bindings

variable {α : Type} {helpers : List Helper} {s : Making} {map : Content} {name : String}
  {P Q : HelperKind → Prop} {kinds : α → HelperKind → Prop} {ds : List α}
  {as : List (String × ClassName)}

/-- The map has a helper of that kind under the name. -/
def Binds (helpers : List Helper) (s : Making) (map : Content) (name : String)
    (P : HelperKind → Prop) : Prop :=
  ∃ h ∈ helpers, s.bound? map name = some h.name.internal ∧ P h.kind

/-- One helper only is under a name. -/
theorem Binds.same (distinct : (helpers.map (·.name)).Nodup) (h : Binds helpers s map name P)
    (h' : Binds helpers s map name Q) : ∃ kind, P kind ∧ Q kind := by
  obtain ⟨helper, mem, bound, first⟩ := h
  obtain ⟨helper', mem', bound', second⟩ := h'
  have same : helper.name = helper'.name :=
    congrArg ClassName.mk (Option.some.inj (bound.symm.trans bound'))
  obtain rfl := List.inj_on_of_nodup_map distinct mem mem' same
  exact ⟨helper.kind, first, second⟩

/-- What is found under a name is for the first that has it. -/
theorem lookup_of_serves {key : α → String}
    (h : List.Forall₂ (fun d => Serves helpers (key d) (kinds d)) ds as) {d : α}
    (first : ds.find? (key · == name) = some d) :
    ∃ helper ∈ helpers, as.lookup name = some helper.name ∧ kinds d helper.kind := by
  induction h with
  | nil => cases first
  | @cons d' a ds as head _ ih =>
    obtain ⟨key', helper'⟩ := a
    obtain ⟨rfl, helper, mem, rfl, kind⟩ := head
    by_cases own : key d' = name
    · simp only [List.find?_cons, beq_iff_eq.2 own] at first
      cases first
      exact ⟨helper, mem, by rw [own, List.lookup_cons_self], kind⟩
    · simp only [List.find?_cons, beq_false_of_ne own] at first
      obtain ⟨helper', mem', found, kind'⟩ := ih first
      refine ⟨helper', mem', ?_, kind'⟩
      rwa [List.lookup_cons, beq_false_of_ne (Ne.symm own)]

/-- In a map that is filled in order, the last one of a name is bound to it. -/
theorem binds_last (key : α → String)
    (bound : s.bound? map name = (as.reverse.lookup name).map (·.internal))
    (h : List.Forall₂ (fun d => Serves helpers (key d) (kinds d)) ds as) {d : α}
    (last : ds.reverse.find? (key · == name) = some d) : Binds helpers s map name (kinds d) := by
  obtain ⟨helper, mem, found, kind⟩ := lookup_of_serves (List.rel_reverse h) last
  exact ⟨helper, mem, by rw [bound, found]; rfl, kind⟩

/-- There is a last one of each name. -/
theorem exists_last (key : α → String) {d : α} (mem : d ∈ ds) : ∃ d' ∈ ds, key d' = key d ∧
    ds.reverse.find? (key · == key d) = some d' := by
  cases last : ds.reverse.find? (key · == key d) with
  | none => exact absurd (beq_self_eq_true _) (List.find?_eq_none.1 last d (List.mem_reverse.2 mem))
  | some d' =>
    have same := List.find?_some (p := fun d' => key d' == key d) last
    exact ⟨d', List.mem_reverse.1 (List.mem_of_find?_eq_some last), beq_iff_eq.1 same, rfl⟩

end Bindings

theorem HelperKind.OfMethod.same {r r' : MethodReference} {kind : HelperKind}
    (h : kind.OfMethod r) (h' : kind.OfMethod r') :
    r.descriptor.descriptor = r'.descriptor.descriptor := by
  cases kind with
  | method name d isStatic => exact h.2.symm.trans h'.2
  | call name d isStatic => cases h
  | field name t isStatic isFinal => cases h

theorem HelperKind.OfMethod.of_same {r r' : MethodReference} {kind : HelperKind}
    (h : kind.OfMethod r) (name : r.name = r'.name)
    (descriptor : r.descriptor.descriptor = r'.descriptor.descriptor) : kind.OfMethod r' := by
  cases kind with
  | method _ d isStatic => exact ⟨h.1.trans name, h.2.trans descriptor⟩
  | call _ d isStatic => cases h
  | field _ t isStatic isFinal => cases h

/-! ## Added methods -/

/-- What an added method hands over: its token, a map with the helper of each field that it
declares, and one that has the helper of the last of its methods under each of their names. -/
structure HandsHelpers (helpers : List Helper) (d : MethodDeclaration σ) (token : String)
    (s : Making) (fields methods : Content) : Prop where
  stack : s.stack = [methods, fields, .other, .other, .text token]
  fields : ∀ name ∈ d.fields, Binds helpers s fields name (HelperKind.OfField name)
  last : ∀ name r, d.methods.reverse.find? (·.name == name) = some r →
    Binds helpers s methods name (HelperKind.OfMethod r)
  /-- None of the methods is lost just if no two that share a name differ in their descriptors. -/
  methods : (∀ r ∈ d.methods, Binds helpers s methods r.name (HelperKind.OfMethod r)) ↔
    ∀ r ∈ d.methods, ∀ r' ∈ d.methods, r.name = r'.name →
      r.descriptor.descriptor = r'.descriptor.descriptor

/-- The maps of an added method bind what is declared. -/
theorem PlannedMethod.HandsMaps.handsHelpers {helpers : List Helper} {d : MethodDeclaration σ}
    {m : PlannedMethod} {s : Making} (h : m.HandsMaps s) (equips : m.Equips helpers d)
    (distinct : (helpers.map (·.name)).Nodup) :
    ∃ fields methods, HandsHelpers helpers d m.token s fields methods := by
  obtain ⟨fields, methods, stack, bound, bound'⟩ := h
  have last (name : String) (r : MethodReference)
      (found : d.methods.reverse.find? (·.name == name) = some r) :
      Binds helpers s methods name (HelperKind.OfMethod r) :=
    binds_last MethodReference.name (bound' name) equips.methods found
  refine ⟨fields, methods, stack, fun name mem => ?_, last, fun all r mem r' mem' same => ?_,
    fun alike r mem => ?_⟩
  · obtain ⟨name', -, rfl, found⟩ := exists_last id mem
    exact binds_last id (bound _) equips.fields found
  -- both are under one name, so they have one helper
  · obtain ⟨kind, own, own'⟩ := (all r mem).same distinct (same ▸ all r' mem')
    exact own.same own'
  · obtain ⟨r', mem', same, found⟩ := exists_last MethodReference.name mem
    obtain ⟨helper, planned, under, kind⟩ := last r.name r' found
    exact ⟨helper, planned, under, kind.of_same same (alike r' mem' r mem same)⟩

/-! ## Plans for compositions -/

variable {composition : Composition σ} {weaving : Options} {image : Bytes} {decoding : Nat}
  {plan : Plan}

theorem Planner.NamesHelper.ne_hashMapClass {h : Helper} (named : Planner.NamesHelper owner h) :
    h.name ≠ hashMapClass := by
  obtain ⟨letter, -, n, same⟩ := named
  rw [same, Planner.nested_helperSuffix]
  intro clash
  -- helpers are nested in the owner, the class of the maps is in no other class
  have dollar : '$' ∈ (owner.internal ++ ("$cw$" ++ letter) ++ toString n).toList := by
    simp [String.toList_append]
  rw [ClassName.mk.inj clash] at dollar
  revert dollar
  decide

/-- Each method that is declared is in the woven class, under its name and its descriptor, and calls
the bridge with maps that bind the fields and the methods it declares to use. -/
theorem Plan.binds_of_apply {l l' : Ledger σ} {s : ClassSite} {images : WovenImages}
    (planned : Plan.ofComposition weaving composition l = .ok plan l')
    (site : ClassSite.ofBytes options decoding image = .ok composition.site)
    (sites : ∀ a ∈ composition.methods, a.1 ∈ composition.site.methods) {again : Nat}
    (site' : ClassSite.ofBytes options again image = .ok s) (applied : plan.apply s = .ok images) :
    ∃ w, ClassFile.ofBytes options images.primary = .ok w ∧ (plan.helpers.map (·.name)).Nodup ∧
      List.Forall₂ (fun d a => ∃ m ∈ w.methods,
        m.isNamed w.pool d.name d.descriptor.descriptor = true ∧
          m.AsksBridge w.pool "invokeAdded" 4 fun made => ∃ fields methods,
            HandsHelpers plan.helpers d a.token made fields methods)
        (composition.additions.filterMap (·.method?)) plan.methods := by
  obtain ⟨c, c', q, decoded, lists, woven, grown, small, read⟩ := woven_of_apply site site' applied
  have populated := (populated_of_lists planned sites decoded lists woven
    (Nat.lt_of_le_of_lt grown.size_le small)).mono grown
  obtain ⟨given, -, registers⟩ := registers_of_ofComposition planned
  have distinct := (helpers_of_ofComposition planned).1.nodup
  have others {name : String} {P : HelperKind → Prop} {a : String × ClassName}
      (served : Serves plan.helpers name P a) : a.2 ≠ hashMapClass := by
    obtain ⟨-, helper, mem, same, -⟩ := served
    exact same ▸ (registers.helpers helper mem).ne_hashMapClass
  have each := (List.forall₂_and_left _ _).2
    ⟨populated.added, (equips_of_ofComposition planned).flip⟩
  refine ⟨_, read, distinct, each.flip.imp fun d a both => ?_⟩
  obtain ⟨⟨m, mem, emitted⟩, equips⟩ := both
  obtain ⟨code, coded, built⟩ := emitted.built
  have asks := a.asks_code s.name plan.helpers
    (fun x mem => have ⟨_, _, served⟩ := forall₂_mem_right equips.fields mem; others served)
    (fun x mem => have ⟨_, _, served⟩ := forall₂_mem_right equips.methods mem; others served)
  refine ⟨m, mem, ?_, (built.asks coded asks small).mono fun made hands =>
    hands.handsHelpers equips distinct⟩
  rw [← equips.name, ← equips.descriptor]
  exact emitted.isNamed small

/-- Declares to use two methods that share a name. -/
def overloadUser : MethodDeclaration Unit where
  access := .accPublic
  name := "g"
  descriptor := ⟨[], .object⟩
  code receiver _ _ := pure receiver
  methods := [⟨"f", ⟨[], .object⟩⟩, ⟨"f", ⟨[.primitive .int], .object⟩⟩]

/-- Adds two methods that share a name, and one that uses both. -/
def overloadedComposition : Composition Unit where
  site := plainSite
  additions := (overloadUser.methods.map fun r => .addMethod {
    access := .accPublic
    name := r.name
    descriptor := r.descriptor
    code := fun receiver _ _ => pure receiver }) ++ [.addMethod overloadUser]

/-- The plan is made, and one of the two methods is lost. -/
theorem Plan.binds_overloaded : ∃ plan ledger,
    Plan.ofComposition {} overloadedComposition ⟨{ number := 1 }, 1⟩ = .ok plan ledger ∧
      ∀ images, plan.apply plainSite = .ok images → ∃ w,
        ClassFile.ofBytes {} images.primary = .ok w ∧ ∃ m ∈ w.methods,
          m.isNamed w.pool "g" "()Ljava/lang/Object;" = true ∧
            m.AsksBridge w.pool "invokeAdded" 4 fun made => ∃ methods ∈ made.stack,
              ¬ ∀ r ∈ overloadUser.methods,
                Binds plan.helpers made methods r.name (HelperKind.OfMethod r) := by
  obtain ⟨plan, ledger, planned, -⟩ : ∃ plan ledger,
      ofComposition {} overloadedComposition ⟨{ number := 1 }, 1⟩ = .ok plan ledger ∧
        plan.methods.length = 3 := exists_ofComposition (by decide +kernel)
  refine ⟨plan, ledger, planned, fun images applied => ?_⟩
  obtain ⟨w, woven, -, each⟩ := binds_of_apply planned ofBytes_plainImage
    (fun a mem => nomatch mem) ofBytes_plainImage applied
  have declared : overloadUser ∈ overloadedComposition.additions.filterMap (·.method?) :=
    List.mem_filterMap.2 ⟨.addMethod overloadUser,
      List.mem_append_right _ (List.mem_singleton_self _), rfl⟩
  obtain ⟨a, -, m, mem, named, asks⟩ := forall₂_mem_left each declared
  refine ⟨w, woven, m, mem, named, asks.mono ?_⟩
  rintro made ⟨fields, methods, hands⟩
  refine ⟨methods, by rw [hands.stack]; exact List.mem_cons_self, fun all => ?_⟩
  have alike := hands.methods.1 all _ List.mem_cons_self _
    (List.mem_cons_of_mem _ (List.mem_singleton_self _)) rfl
  revert alike
  decide

end Weave

end Weft
