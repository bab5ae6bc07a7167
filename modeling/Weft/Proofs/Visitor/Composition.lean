import Weft.Proofs.Invariants
import Weft.Visitor.Composer

/-!
# What composers answer

What holds of every injection that a composer lets through, and of all that is cached, holds of all
that is composed. So composers that share a cache and support the same kinds never answer with a
kind that they do not support, and a composer that visits a site refuses such a kind. What they
support makes no difference for a site that is cached: it is answered as it was composed first.
-/

namespace Weft

variable {σ : Type}

/-! ## What is cached -/

/-- What is cached for a set of visitors has the property of that set. -/
def PlanCache.Keeps (K : VisitorSetId → Injection σ → Prop) (c : PlanCache σ) : Prop :=
  ∀ (key : SiteKey × VisitorSetId) composed, c.entries[key]? = some composed →
    ∀ i ∈ composed, K key.2 i

namespace PlanCache

variable {K : VisitorSetId → Injection σ → Prop} {c : PlanCache σ}

theorem keeps_empty : PlanCache.Keeps K ({} : PlanCache σ) := by
  intro key composed found
  rw [Std.HashMap.getElem?_empty] at found
  cases found

theorem Keeps.store (h : c.Keeps K) {id : VisitorSetId} {composed : List (Injection σ)}
    (each : ∀ i ∈ composed, K id i) (key : SiteKey) :
    (PlanCache.store key id composed c).2.Keeps K ∧
      ∀ i ∈ (PlanCache.store key id composed c).1, K id i := by
  constructor
  · intro key' kept found
    have found : (c.entries.insertIfNew (key, id) composed)[key']? = some kept := found
    rw [Std.HashMap.getElem?_insertIfNew] at found
    split at found
    case isTrue same =>
      cases found
      exact eq_of_beq same.1 ▸ each
    case isFalse => exact h key' kept found
  · show ∀ i ∈ c.entries.getD (key, id) composed, K id i
    rw [Std.HashMap.getD_eq_getD_getElem?]
    cases found : c.entries[(key, id)]? with
    | none => exact each
    | some kept => exact h _ kept found

/-- What is stored is found again. -/
theorem get?_store (c : PlanCache σ) (key : SiteKey) (id : VisitorSetId)
    (composed : List (Injection σ)) :
    (store key id composed c).2.get? key id = some (store key id composed c).1 := by
  show (c.entries.insertIfNew (key, id) composed)[(key, id)]? =
    some (c.entries.getD (key, id) composed)
  rw [Std.HashMap.getElem?_insertIfNew, Std.HashMap.getD_eq_getD_getElem?]
  split
  case isTrue fresh =>
    rw [Std.HashMap.getElem?_eq_none fresh.2]
    rfl
  case isFalse kept =>
    have kept : (key, id) ∈ c.entries := Decidable.byContradiction fun fresh =>
      kept ⟨beq_self_eq_true _, fresh⟩
    rw [Std.HashMap.getElem?_eq_some_getElem kept]
    rfl

end PlanCache

/-! ## What is composed -/

/-- All injections of a composition, those of the class first. -/
def Composition.injections (c : Composition σ) : List (Injection σ) :=
  c.additions ++ c.fields.flatMap (·.2) ++ c.methods.flatMap (·.2)

namespace Composer

variable {K : VisitorSetId → Injection σ → Prop} {c : Composer σ} {site : Site}

/-- What the composer lets through of its visitors has the property. -/
def Admits (c : Composer σ) (P : Injection σ → Prop) : Prop :=
  ∀ v ∈ c.visitors.visitors, ∀ site world i, (v.visit site world).1 = some i →
    c.check v.name site i = .ok (some i) → P i

/-- What is cached has the property of its set of visitors. -/
abbrev Caching (K : VisitorSetId → Injection σ → Prop) (s : Composing σ) : Prop := s.cache.Keeps K

theorem check_eq_ok {visitor : String} {i : Injection σ} {i? : Option (Injection σ)}
    (h : c.check visitor site i = .ok i?) :
    i? = none ∨ i? = some i ∧ c.supported.supports i.kind = true := by
  unfold check at h
  split at h
  · cases h
  split at h
  · cases h
    exact .inl rfl
  split at h
  · cases h
    exact .inr ⟨rfl, ‹_›⟩
  · cases h

theorem answers_keeps (admits : c.Admits (K c.visitors.id)) {visitors : List (Visitor σ)}
    (shown : ∀ v ∈ visitors, v ∈ c.visitors.visitors) :
    Maintains (Caching K) (c.answers site visitors) fun l => ∀ i ∈ l, K c.visitors.id i := by
  induction visitors with
  | nil => exact .pure fun i mem => nomatch mem
  | cons v rest ih =>
    have ih := ih fun v' mem => shown v' (List.mem_cons_of_mem v mem)
    have visiting : Maintains (Caching K) (Compose.visiting (v.visit site))
        fun i? => ∀ i, i? = some i → ∃ world, (v.visit site world).1 = some i := by
      constructor
      case ok =>
        intro s i? s' before done
        cases done
        exact ⟨before, fun i answered => ⟨s.world, answered⟩⟩
      case error =>
        intro s e s' before done
        cases done
    refine visiting.bind fun i? answered => ?_
    cases i? with
    | none => exact ih
    | some i =>
      obtain ⟨world, answered⟩ := answered i rfl
      have kept : ∀ i?, c.check v.name site i = .ok i? → ∀ j ∈ i?.toList, K c.visitors.id j := by
        intro i? checked j mem
        rcases check_eq_ok checked with rfl | ⟨rfl, -⟩
        · cases mem
        · obtain rfl := List.mem_singleton.1 mem
          exact admits v (shown v List.mem_cons_self) site world j answered checked
      refine (Maintains.check kept).bind fun kept first => ih.bind fun others second =>
        .pure fun j mem => ?_
      rcases List.mem_append.1 mem with mem | mem
      · exact first j mem
      · exact second j mem

theorem visitAll_keeps (admits : c.Admits (K c.visitors.id)) (site : Site) :
    Maintains (Caching K) (c.visitAll site) fun l => ∀ i ∈ l, K c.visitors.id i := by
  have shown : ∀ v ∈ c.visitors.forTarget site.target, v ∈ c.visitors.visitors := fun v mem =>
    (List.mem_filter.1 mem).1
  refine (answers_keeps admits shown).bind fun injections answered => .pure fun i mem => ?_
  exact answered i (List.mem_mergeSort.1 mem)

theorem stage_keeps (admits : c.Admits (K c.visitors.id)) (site : Site) :
    Maintains (Caching K) (c.stage site) fun l => ∀ i ∈ l, K c.visitors.id i := by
  refine Maintains.get.bind fun s before => ?_
  cases found : s.cache.get? site.key c.visitors.id with
  | none => exact visitAll_keeps admits site
  | some composed => exact .pure fun i mem => before _ composed found i mem

theorem commit_keeps (site : Site) {composed : List (Injection σ)}
    (each : ∀ i ∈ composed, K c.visitors.id i) :
    Maintains (Caching K) (c.commit site composed) fun l => ∀ i ∈ l, K c.visitors.id i := by
  constructor
  case ok =>
    intro s kept s' before done
    cases done
    exact before.store each site.key
  case error =>
    intro s e s' before done
    cases done

theorem compose_keeps (admits : c.Admits (K c.visitors.id)) (site : Site) :
    Maintains (Caching K) (c.compose site) fun l => ∀ i ∈ l, K c.visitors.id i := by
  refine Maintains.get.bind fun s before => ?_
  cases found : s.cache.get? site.key c.visitors.id with
  | none => exact (visitAll_keeps admits site).bind fun _ each => commit_keeps site each
  | some composed => exact .pure fun i mem => before _ composed found i mem

theorem stageMembers_keeps {α : Type} (admits : c.Admits (K c.visitors.id)) (target : Target)
    (site : α → Site) (members : List α) :
    Maintains (Caching K) (c.stageMembers target site members)
      fun staged => ∀ m ∈ staged, ∀ i ∈ m.2, K c.visitors.id i :=
  .ite (fun _ => .mapM fun m _ => (stage_keeps admits (site m)).bind fun _ staged =>
    .pure staged) fun _ => .pure fun _ mem => nomatch mem

theorem commitMembers_keeps {α : Type} (site : α → Site) {staged : List (α × List (Injection σ))}
    (each : ∀ m ∈ staged, ∀ i ∈ m.2, K c.visitors.id i) :
    Maintains (Caching K) (c.commitMembers site staged)
      fun kept => ∀ m ∈ kept, ∀ i ∈ m.2, K c.visitors.id i := by
  unfold commitMembers
  refine (Maintains.mapM (Q := fun m => ∀ i ∈ m.2, K c.visitors.id i) fun m mem => ?_).bind
    fun _ kept => .pure fun m mem => kept m (List.mem_filter.1 mem).1
  exact (commit_keeps (site m.1) (each m mem)).bind fun _ kept => .pure kept

/-- A class and its members: what is answered has the property, and so has what is cached then. -/
theorem composeAll_keeps (admits : c.Admits (K c.visitors.id)) (s : ClassSite) :
    Maintains (Caching K) (c.composeAll s)
      fun composition => ∀ i ∈ composition.injections, K c.visitors.id i := by
  refine (stage_keeps admits (.ofClass s)).bind fun additions staged => ?_
  refine (stageMembers_keeps admits .ofField .ofField s.fields).bind fun fields shown => ?_
  refine (stageMembers_keeps admits .ofMethod .ofMethod s.methods).bind fun methods shown' => ?_
  refine (commit_keeps (.ofClass s) staged).bind fun kept additions => ?_
  refine (commitMembers_keeps .ofField shown).bind fun _ fields => ?_
  refine (commitMembers_keeps .ofMethod shown').bind fun _ methods => .pure fun i mem => ?_
  rcases List.mem_append.1 mem with mem | mem
  · rcases List.mem_append.1 mem with mem | mem
    · exact additions i mem
    · obtain ⟨m, listed, mem⟩ := List.mem_flatMap.1 mem
      exact fields m listed i mem
  · obtain ⟨m, listed, mem⟩ := List.mem_flatMap.1 mem
    exact methods m listed i mem

/-! ## Kinds that are supported -/

/-- What composers are asked for: a site alone, or a class with its members. -/
inductive Request where
  | one (site : Site)
  | whole (site : ClassSite)

/-- The injections that answer a request. -/
def answer (c : Composer σ) : Request → Compose σ (List (Injection σ))
  | .one site => c.compose site
  | .whole site => do return (← c.composeAll site).injections

theorem answer_keeps (admits : c.Admits (K c.visitors.id)) (r : Request) :
    Maintains (Caching K) (c.answer r) fun l => ∀ i ∈ l, K c.visitors.id i := by
  cases r with
  | one site => exact compose_keeps admits site
  | whole site => exact (composeAll_keeps admits site).bind fun _ each => .pure each

/-- A state that composers come to that share a cache, of which those over the visitors `id` all
support the same kinds. -/
inductive Reaches (kinds : Kinds) (id : VisitorSetId) : Composing σ → Prop
  | made (world : σ) : Reaches kinds id ⟨{}, world⟩
  | answered {s : Composing σ} (c : Composer σ) (r : Request)
    (supported : c.visitors.id = id → c.supported = kinds) (h : Reaches kinds id s) :
    Reaches kinds id ((c.answer r).attempt s).2
  /-- Others act on the world. -/
  | elapsed {s : Composing σ} (world : σ) (h : Reaches kinds id s) :
    Reaches kinds id { s with world }

/-- The injections for the visitors `id` are of these kinds. -/
def WithinKinds (kinds : Kinds) (id : VisitorSetId) : VisitorSetId → Injection σ → Prop :=
  fun id' i => id' = id → kinds.supports i.kind = true

theorem admits_withinKinds {kinds : Kinds} {id : VisitorSetId}
    (supported : c.visitors.id = id → c.supported = kinds) :
    c.Admits (WithinKinds kinds id c.visitors.id) := by
  intro v _ site world i _ checked same
  rcases check_eq_ok checked with none | ⟨-, supports⟩
  · cases none
  · exact supported same ▸ supports

theorem Reaches.caching {kinds : Kinds} {id : VisitorSetId} {s : Composing σ}
    (h : Reaches kinds id s) : Caching (WithinKinds kinds id) s := by
  induction h with
  | made world => exact PlanCache.keeps_empty
  | elapsed world _ ih => exact ih
  | @answered s c r supported _ ih =>
    have keeps := answer_keeps (admits_withinKinds supported) r
    unfold Edit.attempt
    cases done : c.answer r s with
    | ok l s' => exact (keeps.ok s l s' ih done).1
    | error e s' => exact keeps.error s e s' ih done

/-- Whatever was composed before, composers that support the same kinds are answered with injections
of these kinds. -/
theorem Reaches.supported {s s' : Composing σ} {r : Request} {l : List (Injection σ)}
    (h : Reaches c.supported c.visitors.id s) (done : c.answer r s = .ok l s') :
    ∀ i ∈ l, c.supported.supports i.kind = true := by
  have admits : c.Admits (WithinKinds c.supported c.visitors.id c.visitors.id) :=
    admits_withinKinds fun _ => rfl
  exact fun i mem => ((answer_keeps admits r).ok s l s' h.caching done).2 i mem rfl

/-- A visitor that asks for a kind that is not supported ends the composition. -/
theorem answers_unrealizable {before rest : List (Visitor σ)} {v : Visitor σ} {s s₁ : Composing σ}
    {l : List (Injection σ)} {i : Injection σ} {world : σ}
    (first : c.answers site before s = .ok l s₁)
    (asked : v.visit site s₁.world = (some i, world)) (target : i.target = site.target)
    (something : i.isNothing = false) (unsupported : c.supported.supports i.kind = false) :
    c.answers site (before ++ v :: rest) s =
      .error (.incompatible (.unrealizable v.name i.kind site.name)) { s₁ with world } := by
  induction before generalizing s l with
  | nil =>
    obtain ⟨-, rfl⟩ := step_pure_eq_ok.1 first
    have visited : Compose.visiting (v.visit site) s = .ok (some i) { s with world } := by
      unfold Compose.visiting
      rw [asked]
    have refused : c.check v.name site i =
        .error (.incompatible (.unrealizable v.name i.kind site.name)) := by
      unfold check
      rw [if_neg (not_not_intro target), something, unsupported]
      rfl
    show (Compose.visiting (v.visit site) >>= _) s = _
    rw [step_bind_ok visited]
    refine step_bind_error ?_
    rw [refused]
    rfl
  | cons u before ih =>
    obtain ⟨i?, s₂, visited, first⟩ := step_bind_eq_ok.1 first
    show (Compose.visiting (u.visit site) >>= _) s = _
    rw [step_bind_ok visited]
    cases i? with
    | none => exact ih first
    | some j =>
      obtain ⟨kept, s₃, checked, first⟩ := step_bind_eq_ok.1 first
      obtain ⟨others, s₄, answered, done⟩ := step_bind_eq_ok.1 first
      obtain ⟨-, rfl⟩ := step_pure_eq_ok.1 done
      refine (step_bind_ok checked).trans ?_
      exact step_bind_error (ih answered)

/-- What was composed for a site is what every later composer over the same visitors answers,
whichever kinds that one supports. -/
theorem compose_again {c' : Composer σ} {s s' : Composing σ} {l : List (Injection σ)}
    (done : c.compose site s = .ok l s') (visitors : c'.visitors.id = c.visitors.id) (world : σ) :
    c'.compose site { s' with world } = .ok l { s' with world } := by
  have cached : s'.cache.get? site.key c.visitors.id = some l := by
    unfold compose at done
    rw [step_get_bind] at done
    cases found : s.cache.get? site.key c.visitors.id with
    | some composed =>
      rw [found] at done
      obtain ⟨rfl, rfl⟩ := step_pure_eq_ok.1 done
      exact found
    | none =>
      rw [found] at done
      obtain ⟨composed, s₁, -, committed⟩ := step_bind_eq_ok.1 done
      cases committed
      exact PlanCache.get?_store s₁.cache site.key c.visitors.id composed
  unfold compose
  rw [step_get_bind, visitors]
  dsimp only
  rw [cached]
  rfl

end Composer

end Weft
