import Weft.Proofs.Weave.Conservation
import Weft.Proofs.Weave.Holders
import Weft.Proofs.Weave.Population
import Weft.Proofs.Weave.Verification

/-!
# Woven code presents tokens that resolve

The calls of the bridge in a woven class are made with the tokens of the plan: wrappers and added
methods hand over constants of their code, and assignments what the holders of their fields hold.
Whatever registries there are and whatever is registered before and behind, each of these tokens
stands for the callback of its injection in the registry of the plan, and for none in the others.
-/

namespace Weft

variable {options : DecodeOptions} {σ : Type}

namespace Weave

variable {plan : Plan} {owner : ClassName} {c w : ClassFile}

/-! ## Calls of the bridge -/

/-- The text that a source stands for: a constant of the code, or what a constant of the class
holds. -/
def Source.text? (w : ClassFile) : Source → Option String
  | .text s => some s
  | .field f =>
    if w.name.toOption = some ⟨f.owner⟩ then
      match w.constant? f.name f.descriptor with
      | some (.string s) => some s
      | _ => none
    else none
  | _ => none

/-- The call is one of that entry of the bridge, with that token. -/
def Handing.Calls (w : ClassFile) (entry token : String) (h : Handing) : Prop :=
  h.entry = entry ∧ h.token.text? w = some token

/-- The method calls the bridge once, by that entry and with that token. -/
def CallsOnce (w : ClassFile) (m : Member) (entry token : String) : Prop :=
  ∃ h, m.HandsOver w.pool [h] ∧ h.Calls w entry token

/-- A part of the method calls the bridge with each of the tokens, in their order. -/
def CallsEach (w : ClassFile) (m : Member) (entry : String) (tokens : List String) : Prop :=
  ∃ hs, m.Includes w.pool hs ∧ List.Forall₂ (Handing.Calls w entry) tokens hs

/-- The tokens of the fields that code gives values to, static ones or others. -/
def Plan.pendingTokens (plan : Plan) (isStatic : Bool) : List String :=
  (pendingFields isStatic plan.fields).filterMap (·.init.token?)

/-- The calls of the bridge in a class that is woven of another. -/
structure Plan.Presents (plan : Plan) (owner : ClassName) (c w : ClassFile) : Prop where
  /-- Wrappers stand in the places of their methods, unless these are intercepted again. -/
  intercepts : ∀ i ∈ plan.intercepts, ∃ (n : Nat) (m : Member), w.methods[n]? = some m ∧
    CallsOnce w m "intercept" i.token ∧
    ((plan.intercepts.map (·.site.index)).Nodup → n = i.site.index.toNat)
  added : ∀ a ∈ plan.methods, ∃ m ∈ w.methods,
    m.isNamed w.pool a.name a.descriptor.descriptor = true ∧ CallsOnce w m "invokeAdded" a.token
  statics : pendingFields true plan.fields ≠ [] → ∃ m ∈ w.methods,
    m.isNamed w.pool "<clinit>" plainDescriptor.descriptor = true ∧
      CallsEach w m "initialValue" (plan.pendingTokens true)
  instances : pendingFields false plan.fields ≠ [] → ∀ (n : Nat) (m : Member),
    c.methods[n]? = some m → CallsSuper c.pool owner m →
      ∃ m', w.methods[n]? = some m' ∧ CallsEach w m' "initialValue" (plan.pendingTokens false)
  /-- Other methods have code that the class had. -/
  each : ∀ m' ∈ w.methods, (∃ m ∈ c.methods, m'.code? = m.code?) ∨
    (∃ i ∈ plan.intercepts, CallsOnce w m' "intercept" i.token) ∨
    (∃ a ∈ plan.methods, CallsOnce w m' "invokeAdded" a.token) ∨
    ∃ isStatic, pendingFields isStatic plan.fields ≠ [] ∧
      CallsEach w m' "initialValue" (plan.pendingTokens isStatic)

theorem PlannedIntercept.IsWrapper.callsOnce {i : PlannedIntercept} {m : Member}
    (h : i.IsWrapper owner w.pool m) (small : w.pool.size < 65536) :
    CallsOnce w m "intercept" i.token := by
  obtain ⟨wrapper, coded, built⟩ := h
  obtain ⟨b, read, traced⟩ := built.traced (i.hands_wrapperCode owner) small
  exact ⟨_, ⟨b, _, Member.body?_eq_some coded read, traced⟩, rfl, rfl⟩

theorem PlannedMethod.callsOnce {a : PlannedMethod} {helpers : List Helper} {m : Member}
    (h : m.IsEmitted a.name a.descriptor a.isStatic (a.code owner helpers) w.pool)
    (small : w.pool.size < 65536) : CallsOnce w m "invokeAdded" a.token := by
  obtain ⟨code, coded, built⟩ := h.built
  obtain ⟨b, read, traced⟩ := built.traced (a.hands_code owner helpers) small
  exact ⟨_, ⟨b, _, Member.body?_eq_some coded read, traced⟩, rfl, rfl⟩

/-- The holders of computed fields are constants of the class, and hold their tokens. -/
def Plan.HoldsTokens (plan : Plan) (w : ClassFile) : Prop :=
  ∀ f ∈ plan.fields, ∀ token holder, f.init = .callback token holder →
    w.constant? holder JType.string.descriptor = some (.string token)

theorem Plan.HoldsTokens.calls (h : plan.HoldsTokens w) (named : w.name = .ok owner)
    {fields : List PlannedField} (planned : ∀ f ∈ fields, f ∈ plan.fields) :
    List.Forall₂ (Handing.Calls w "initialValue") (fields.filterMap (·.init.token?))
      (fields.filterMap (·.handing? owner)) := by
  induction fields with
  | nil => exact .nil
  | cons f fields ih =>
    have rest := ih fun g mem => planned g (List.mem_cons_of_mem f mem)
    rw [List.filterMap_cons, List.filterMap_cons]
    unfold PlannedField.handing?
    cases init : f.init with
    | callback token holder =>
      refine .cons ⟨rfl, ?_⟩ rest
      have held := h f (planned f List.mem_cons_self) token holder init
      simp only [Source.text?, named, Except.toOption, if_true, held]
    | _ => exact rest

theorem Initializes.callsEach {isStatic : Bool} {m : Member}
    (h : Initializes owner (pendingFields isStatic plan.fields) w.pool m)
    (held : plan.HoldsTokens w) (named : w.name = .ok owner) (small : w.pool.size < 65536) :
    CallsEach w m "initialValue" (plan.pendingTokens isStatic) :=
  ⟨_, h.includes _ (.refl _) small,
    held.calls named fun _ mem => (List.mem_filter.1 mem).1⟩

/-- The code that is left for the parts of a plan presents their tokens. -/
theorem Populated.presents (h : Populated plan owner c w.pool w.methods)
    (held : plan.HoldsTokens w) (named : w.name = .ok owner) (small : w.pool.size < 65536) :
    plan.Presents owner c w where
  intercepts i planned := by
    obtain ⟨n, m, at_n, wrapper, unmoved⟩ := h.intercepts i planned
    exact ⟨n, m, at_n, wrapper.callsOnce small, unmoved⟩
  added a planned := by
    obtain ⟨m, mem, emitted⟩ := h.added a planned
    exact ⟨m, mem, emitted.isNamed small, PlannedMethod.callsOnce emitted small⟩
  statics nonempty := by
    obtain ⟨m, mem, special, initializes⟩ := h.statics nonempty
    exact ⟨m, mem, Member.isNamed_iff.2 ⟨special.name.utf8 small.le,
      special.descriptor.utf8 small.le⟩, initializes.callsEach held named small⟩
  instances nonempty n m at_n calls := by
    obtain ⟨m', at_n', initializes⟩ := h.instances nonempty n m at_n calls
    exact ⟨m', at_n', initializes.callsEach held named small⟩
  each m mem := by
    rcases h.each m mem with kept | ⟨i, planned, wrapper⟩ | ⟨a, planned, emitted⟩ |
      ⟨isStatic, initializes⟩
    · exact .inl kept
    · exact .inr (.inl ⟨i, planned, wrapper.callsOnce small⟩)
    · exact .inr (.inr (.inl ⟨a, planned, PlannedMethod.callsOnce emitted small⟩))
    · exact .inr (.inr (.inr ⟨isStatic, initializes.nonempty,
        initializes.callsEach held named small⟩))

/-! ## Plans for compositions -/

variable {composition : Composition σ} {weaving : Options} {image : Bytes} {decoding : Nat}

/-- A plan leaves its methods in the class that it was made for. -/
theorem Plan.populated_of_lists {l l' : Ledger σ} {c' : ClassFile}
    (planned : Plan.ofComposition weaving composition l = .ok plan l')
    (sites : ∀ a ∈ composition.methods, a.1 ∈ composition.site.methods)
    (decoded : ClassFile.ofBytes options image = .ok c) (lists : composition.site.Lists c)
    (woven : plan.weave owner c = .ok () c') (small : c'.pool.size < 65536) :
    Populated plan owner c c'.pool c'.methods := by
  obtain ⟨-, sub, ⟨_, -, admits⟩, -⟩ := intercepts_of_ofComposition planned
  have whole := ClassFile.decoded_of_ofBytes decoded
  refine populated_of_weave woven whole.readable (fun i mem => (admits i mem).kept)
    (fun i mem => ?_) small
  obtain ⟨a, asked, same⟩ := List.mem_map.1 (sub.subset (List.mem_map_of_mem mem))
  obtain ⟨m, found, named⟩ := lists.inside whole.few (same ▸ sites a asked)
  exact ⟨m, found, ordinary_of_holds (Pool.holds_of_utf8 named) (admits i mem).method⟩

/-- What a plan registers its callbacks for is what the woven class presents. -/
theorem Plan.presents_of_apply {l l' : Ledger σ} {s : ClassSite} {images : WovenImages}
    (planned : Plan.ofComposition weaving composition l = .ok plan l')
    (site : ClassSite.ofBytes options decoding image = .ok composition.site)
    (sites : ∀ a ∈ composition.methods, a.1 ∈ composition.site.methods) {again : Nat}
    (site' : ClassSite.ofBytes options again image = .ok s) (applied : plan.apply s = .ok images) :
    ∃ c w, ClassFile.ofBytes options image = .ok c ∧
      ClassFile.ofBytes options images.primary = .ok w ∧ plan.Presents s.name c w := by
  obtain ⟨c, c', q, decoded, lists, woven, grown, small, read⟩ := woven_of_apply site site' applied
  obtain ⟨given, -, registers⟩ := registers_of_ofComposition planned
  have whole := ClassFile.decoded_of_ofBytes decoded
  obtain ⟨keeps, groups, fields, declared⟩ := keeps_of_weave options woven whole.readable.pool
  have populated := populated_of_lists planned sites decoded lists woven
    (Nat.lt_of_le_of_lt grown.size_le small)
  cases site'.symm.trans (ClassSite.ofBytes_again site again)
  have named : c.pool.className c'.thisClass = .ok composition.site.name := by
    rw [keeps.thisClass, ← lists.classFile]
    exact ClassSite.name_of_ofBytes site
  refine ⟨c, _, decoded, read, (populated.mono grown).presents (fun f mem token holder
    computed => ?_) (Pool.className_mono (keeps.pool.keeps.trans grown) named) small⟩
  have start : composition.site.pool.Extends q := by
    rw [ClassSite.pool, lists.classFile]
    exact keeps.pool.keeps.trans grown
  refine registers.names.constant?_holder (namesHolder_of_ofComposition planned)
    (ClassSite.fieldTypes_of_ofBytes site) start ?_ (declared q grown small) mem computed
  rw [lists.classFile]
  exact fields

/-- Tokens that a plan gives out are new and stand for the callbacks of its injections, whatever is
registered before and behind, and in no other registry; the class that is woven presents them. -/
theorem Plan.tokens_resolve {before : Registries σ} {k : Nat} {r r' : Registry σ}
    {next next' : Nat} (history : Registries.Reaches {} before) (found : before.all[k]? = some r)
    (planned : Plan.ofComposition weaving composition ⟨r, next⟩ = .ok plan ⟨r', next'⟩) :
    Registries.Reaches before (before.giveOut k r' plan.tokens) ∧
    plan.tokens.Nodup ∧ (∀ token ∈ plan.tokens, token ∉ before.issued) ∧
    (∀ later, Registries.Reaches (before.giveOut k r' plan.tokens) later →
      (∃ r'', later.all[k]? = some r'' ∧ plan.Carries (fun token callback =>
        r''.resolve token = .ok callback ∧ r''.Serves token callback) composition) ∧
      ∀ j other, j ≠ k → later.all[j]? = some other → ∀ token ∈ plan.tokens,
        other.resolve token = .error (.unresolved (.unknownToken token))) ∧
    ∀ {options decoding image}, ClassSite.ofBytes options decoding image = .ok composition.site →
      (∀ a ∈ composition.methods, a.1 ∈ composition.site.methods) →
        ∀ {again s images}, ClassSite.ofBytes options again image = .ok s →
          plan.apply s = .ok images → ∃ c w, ClassFile.ofBytes options image = .ok c ∧
            ClassFile.ofBytes options images.primary = .ok w ∧ plan.Presents s.name c w := by
  obtain ⟨given, gains, registers⟩ := registers_of_ofComposition planned
  have numbered := history.numbered Registries.numbered_empty
  have reached := Registries.reaches_of_gains found gains
  rw [registers.tokens] at reached
  refine ⟨reached, registers.tokens ▸ gains.nodup, registers.tokens ▸ numbered.fresh found gains,
    fun later behind => ?_, fun site sites _ _ _ => presents_of_apply planned site sites⟩
  have held := gains.resolves (numbered.sound found)
  have here : (before.giveOut k r' plan.tokens).all[k]? = some r' := by
    show (before.all.set k r')[k]? = _
    rw [Registries.getElem?_set_of_found found, if_pos rfl]
  have after := reached.numbered numbered
  obtain ⟨r'', at_k, still⟩ := behind.resolve after here
  refine ⟨⟨r'', at_k, registers.carries.mono fun token callback mem => ?_⟩,
    fun j other apart at_j token mem => ?_⟩
  · have resolved := still token callback (held _ mem)
    exact ⟨resolved, Registry.serves_of_resolve resolved⟩
  · rw [← registers.tokens] at mem
    obtain ⟨g, gained, rfl⟩ := List.mem_map.1 mem
    exact (behind.numbered after).unresolved at_k (still _ _ (held g gained)) at_j apart

/-- Asks for a computed field and a method of the class, and for a hook before its methods. -/
def hookedComposition : Composition Unit where
  site := plainSite
  additions := [.addField ⟨.accPrivate, "n", .primitive .int, .computed fun _ => pure .null⟩,
    .addMethod {
      access := .accPublic
      name := "self"
      descriptor := ⟨[], .object⟩
      code := fun receiver _ _ => pure receiver }]
  methods := plainSite.methods.map fun m => (m, [.preHook fun _ args _ => pure args])

/-- One registry, that is new. -/
def oneRegistry : Registries Unit := { all := [{ number := 1 }] }

theorem reaches_oneRegistry : Registries.Reaches {} oneRegistry := .single (.made {})

theorem ofComposition_hooked : ∃ plan ledger,
    Plan.ofComposition {} hookedComposition ⟨{ number := 1 }, 1⟩ = .ok plan ledger ∧
      plan.tokens = ["cw1:0", "cw1:1", "cw1:2"] := Plan.exists_ofComposition (by decide +kernel)

/-- The field, the method and the hook each have a token. -/
theorem Plan.tokens_resolve_hooked : ∃ plan ledger,
    Plan.ofComposition {} hookedComposition ⟨{ number := 1 }, 1⟩ = .ok plan ledger ∧
      plan.tokens = ["cw1:0", "cw1:1", "cw1:2"] ∧ plan.tokens.Nodup ∧
      plan.Carries (fun token callback => ledger.registry.resolve token = .ok callback ∧
        ledger.registry.Serves token callback) hookedComposition ∧
      ∀ images, plan.apply plainSite = .ok images → ∃ c w,
        ClassFile.ofBytes {} plainImage = .ok c ∧ ClassFile.ofBytes {} images.primary = .ok w ∧
          plan.Presents plainSite.name c w := by
  obtain ⟨plan, ⟨registry, next⟩, planned, tokens⟩ := ofComposition_hooked
  obtain ⟨-, distinct, -, later, woven⟩ := tokens_resolve reaches_oneRegistry (k := 0) rfl planned
  obtain ⟨⟨r, here, carries⟩, -⟩ := later _ .refl
  cases here
  refine ⟨plan, _, planned, tokens, distinct, carries, fun images applied => ?_⟩
  refine woven ofBytes_plainImage (fun a mem => ?_) ofBytes_plainImage applied
  obtain ⟨m, listed, rfl⟩ := List.mem_map.1 mem
  exact listed

end Weave

end Weft
