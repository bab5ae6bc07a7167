import Weft.Proofs.Answers
import Weft.Proofs.Site.Keys
import Weft.Proofs.Visitor.Composition

/-!
# Composing afresh

Visitors that answer by what a site shows can be asked in any world and at any decoding of the site.
As long as what is cached for a set of such visitors is what they answer, a class is composed from
the cache as it is composed without one, and what is cached then is what they answer still.
-/

namespace Weft

variable {σ : Type}

/-! ## Visitors -/

/-- The visitor answers by what the site shows, whatever the world and whichever decoding the site
comes from. -/
def Visitor.Pure (v : Visitor σ) : Prop :=
  ∀ site decoding world world', (v.visit (site.under decoding) world).1 = (v.visit site world').1

namespace Composer

variable {c c' : Composer σ} {site : Site} {decoding : Nat}

/-- What the visitors ask for at a site when they are shown it in that world. -/
def verdict (c : Composer σ) (world : σ) (site : Site) : Except Error (List (Injection σ)) :=
  ((c.visitAll site).attempt ⟨{}, world⟩).1

/-- The composers differ in the identity of their sets of visitors only. -/
structure Twins (c c' : Composer σ) : Prop where
  visitors : c'.visitors.visitors = c.visitors.visitors
  supported : c'.supported = c.supported
  skipSynthetic : c'.skipSynthetic = c.skipSynthetic

theorem check_under (supported : c'.supported = c.supported) (visitor : String) (i : Injection σ) :
    c'.check visitor (site.under decoding) i = c.check visitor site i := by
  unfold check
  rw [supported, Site.target_under, Site.name_under]

/-- Pure visitors are asked for the same in any two states. -/
theorem answers_alike (supported : c'.supported = c.supported) {visitors : List (Visitor σ)}
    (pure : ∀ v ∈ visitors, v.Pure) (s s' : Composing σ) :
    ((c'.answers (site.under decoding) visitors).attempt s').1 =
      ((c.answers site visitors).attempt s).1 := by
  suffices agree : ∀ s s', Agree (fun _ => ()) (c'.answers (site.under decoding) visitors)
      (c.answers site visitors) s' s from (agree s s').eq.1
  clear s s'
  induction visitors with
  | nil => exact fun s s' => .pure [] rfl
  | cons v rest ih =>
    obtain ⟨here, pure⟩ := List.forall_mem_cons.1 pure
    intro s s'
    have visits : Agree (fun _ => ()) (Compose.visiting (v.visit (site.under decoding)))
        (Compose.visiting (v.visit site)) s' s :=
      congrArg (fun answer => ((Except.ok answer : Except Error _), ()))
        (here site decoding s'.world s.world)
    refine visits.bind fun i? t' t _ _ _ => ?_
    cases i? with
    | none => exact ih pure t t'
    | some i =>
      dsimp only
      rw [check_under supported]
      have checks : Agree (fun _ => ()) (liftM (c.check v.name site i) : Compose σ _)
          (liftM (c.check v.name site i)) t' t := .lift _ rfl
      refine checks.bind fun kept u' u _ _ _ => ?_
      exact (ih pure u u').bind fun others w' w _ _ _ => .pure _ rfl

theorem verdict_alike (twins : c.Twins c') (pure : ∀ v ∈ c.visitors.visitors, v.Pure)
    (s : Composing σ) (world : σ) :
    ((c'.visitAll (site.under decoding)).attempt s).1 = c.verdict world site := by
  have shown : c'.visitors.forTarget (site.under decoding).target =
      c.visitors.forTarget site.target := by
    rw [Site.target_under, VisitorSet.forTarget, VisitorSet.forTarget, twins.visitors]
  have pure : ∀ v ∈ c.visitors.forTarget site.target, v.Pure :=
    fun v mem => pure v (List.mem_filter.1 mem).1
  have same : ((c'.answers (site.under decoding) (c.visitors.forTarget site.target)).attempt s).1 =
      ((c.answers site (c.visitors.forTarget site.target)).attempt ⟨{}, world⟩).1 :=
    answers_alike twins.supported pure ⟨{}, world⟩ s
  unfold verdict visitAll
  rw [Edit.attempt_bind, Edit.attempt_bind, shown]
  generalize (c'.answers (site.under decoding) _).attempt s = left at same ⊢
  generalize (c.answers site _).attempt ⟨{}, world⟩ = right at same ⊢
  obtain ⟨r, t⟩ := left
  obtain ⟨r', t'⟩ := right
  obtain rfl : r = r' := same
  cases r <;> rfl

theorem Twins.refl (c : Composer σ) : c.Twins c := ⟨rfl, rfl, rfl⟩

theorem answers_maintains {I : PlanCache σ → Prop} (visitors : List (Visitor σ)) :
    Maintains (fun s : Composing σ => I s.cache) (c.answers site visitors) fun _ => True := by
  induction visitors with
  | nil => exact .pure trivial
  | cons v rest ih =>
    have visiting : Maintains (fun s : Composing σ => I s.cache)
        (Compose.visiting (v.visit site)) fun _ => True := by
      constructor
      case ok =>
        intro s i? s' before done
        cases done
        exact ⟨before, trivial⟩
      case error =>
        intro s e s' before done
        cases done
    refine visiting.bind fun i? _ => ?_
    cases i? with
    | none => exact ih
    | some i =>
      exact (Maintains.check fun _ _ => trivial).bind fun kept _ => ih.bind fun others _ =>
        .pure trivial

theorem visitAll_maintains {I : PlanCache σ → Prop} (site : Site) :
    Maintains (fun s : Composing σ => I s.cache) (c.visitAll site) fun _ => True :=
  (answers_maintains _).bind fun _ _ => .pure trivial

theorem visitAll_gives {I : PlanCache σ → Prop} (pure : ∀ v ∈ c.visitors.visitors, v.Pure)
    (world : σ) :
    Gives (fun s : Composing σ => I s.cache) (c.visitAll site) (c.verdict world site) := by
  intro s before
  obtain ⟨decoding, same⟩ := site.exists_under
  have told : ((c.visitAll (site.under decoding)).attempt s).1 = c.verdict world site :=
    verdict_alike (.refl c) pure s world
  rw [same] at told
  exact ⟨told, (visitAll_maintains site).attempt s before⟩

/-! ## Classes -/

/-- What is asked for at members that are shown to visitors. -/
def survey {α : Type} (c : Composer σ) (ask : Site → Except Error (List (Injection σ)))
    (target : Target) (site : α → Site) (members : List α) :
    Except Error (List (α × List (Injection σ))) :=
  if c.visitors.handles target then
    (members.filter fun m => !(c.skipSynthetic && (site m).isSynthetic)).mapM fun m => do
      return (m, ← ask (site m))
  else return []

/-- What is asked for at a class and at its members. -/
def surveyAll (c : Composer σ) (ask : Site → Except Error (List (Injection σ))) (s : ClassSite) :
    Except Error (Composition σ) := do
  let additions ← ask (.ofClass s)
  let fields ← c.survey ask .ofField .ofField s.fields
  let methods ← c.survey ask .ofMethod .ofMethod s.methods
  return ⟨s, additions, fields.filter (!·.2.isEmpty), methods.filter (!·.2.isEmpty)⟩

/-- What pure visitors ask for at a class does not depend on the identity of their set. -/
theorem surveyAll_twins (twins : c.Twins c') (pure : ∀ v ∈ c.visitors.visitors, v.Pure) (world : σ)
    (s : ClassSite) :
    c'.surveyAll (c'.verdict world) s = c.surveyAll (c.verdict world) s := by
  have asks : c'.verdict world = c.verdict world := by
    funext site
    obtain ⟨decoding, same⟩ := site.exists_under
    have told : ((c'.visitAll (site.under decoding)).attempt ⟨{}, world⟩).1 =
        c.verdict world site := verdict_alike twins pure ⟨{}, world⟩ world
    rwa [same] at told
  have handles (target : Target) : c'.visitors.handles target = c.visitors.handles target := by
    rw [VisitorSet.handles, twins.visitors, VisitorSet.handles]
  simp only [surveyAll, survey, asks, handles, twins.skipSynthetic]

/-- All that is cached is for these visitors, and what is cached for a known site is what is asked
for there. -/
structure Recalls (c : Composer σ) (ask : Site → Except Error (List (Injection σ)))
    (known : Site → Prop) (cache : PlanCache σ) : Prop where
  current : ∀ (key : SiteKey × VisitorSetId) l, cache.entries[key]? = some l →
    key.2 = c.visitors.id
  asked : ∀ site, known site → ∀ l, cache.get? site.key c.visitors.id = some l → ask site = .ok l

/-- What is cached while composing is what is asked for. -/
abbrev Recalling (c : Composer σ) (ask : Site → Except Error (List (Injection σ)))
    (known : Site → Prop) (s : Composing σ) : Prop := c.Recalls ask known s.cache

section Recalls

variable {ask : Site → Except Error (List (Injection σ))} {known : Site → Prop}

theorem recalls_empty : c.Recalls ask known {} where
  current key l found := by
    rw [Std.HashMap.getElem?_empty] at found
    cases found
  asked site _ l found := by
    cases Std.HashMap.getElem?_empty.symm.trans found

variable (asks : ∀ site, known site →
    Gives (c.Recalling ask known) (c.visitAll site) (ask site))
  (keyed : ∀ site site', known site → known site' → site.key = site'.key → ask site = ask site')

include asks

theorem stage_gives (here : known site) :
    Gives (c.Recalling ask known) (c.stage site) (ask site) := by
  intro s before
  unfold stage
  rw [Edit.attempt, step_get_bind]
  cases found : s.cache.get? site.key c.visitors.id with
  | some l => exact ⟨(before.asked site here l found).symm, before⟩
  | none => exact asks site here s before

theorem stageMembers_gives {α : Type} {target : Target} {site : α → Site} {members : List α}
    (inside : ∀ m ∈ members, known (site m)) :
    Gives (c.Recalling ask known)
      (c.stageMembers target site members) (c.survey ask target site members) := by
  refine .ite (fun _ => .mapM fun m mem => ?_) fun _ => .pure []
  have shown := (List.mem_filter.1 mem).1
  exact (stage_gives asks (inside m shown)).bind fun l _ => .pure (m, l)

omit asks

include keyed

theorem commit_gives (here : known site) {l : List (Injection σ)} (asked : ask site = .ok l) :
    Gives (c.Recalling ask known) (c.commit site l) (.ok l) := by
  intro s before
  have kept : s.cache.entries.getD (site.key, c.visitors.id) l = l := by
    rw [Std.HashMap.getD_eq_getD_getElem?]
    cases found : s.cache.entries[(site.key, c.visitors.id)]? with
    | none => rfl
    | some l' =>
      cases asked.symm.trans (before.asked site here l' found)
      rfl
  refine ⟨congrArg Except.ok kept, ?_, ?_⟩
  · intro key l' found
    have found : (s.cache.entries.insertIfNew (site.key, c.visitors.id) l)[key]? = some l' := found
    rw [Std.HashMap.getElem?_insertIfNew] at found
    split at found
    · rename_i same
      exact (congrArg Prod.snd (eq_of_beq same.1)).symm
    · exact before.current key l' found
  · intro site' there l' found
    have found : (s.cache.entries.insertIfNew (site.key, c.visitors.id) l)[
      (site'.key, c.visitors.id)]? = some l' := found
    rw [Std.HashMap.getElem?_insertIfNew] at found
    split at found
    · rename_i same
      cases found
      rw [← keyed site site' here there (congrArg Prod.fst (eq_of_beq same.1)), asked]
    · exact before.asked site' there l' found

theorem commitMembers_gives {α : Type} {site : α → Site} {staged : List (α × List (Injection σ))}
    (inside : ∀ m ∈ staged, known (site m.1) ∧ ask (site m.1) = .ok m.2) :
    Gives (c.Recalling ask known) (c.commitMembers site staged)
      (.ok (staged.filter (!·.2.isEmpty))) := by
  have each : Gives (c.Recalling ask known)
      (staged.mapM fun m => do return (m.1, ← c.commit (site m.1) m.2))
      (staged.mapM fun m => .ok m) := by
    refine .mapM fun m mem => ?_
    exact (commit_gives keyed (inside m mem).1 (inside m mem).2).bind fun l _ => .pure _
  have same : staged.mapM (fun m => (.ok m : Except Error _)) = .ok staged :=
    except_mapM_eq_ok.2 (List.forall₂_same.2 fun _ _ => rfl)
  rw [same] at each
  exact each.bind fun kept _ => .pure _

omit keyed

theorem asked_of_survey {α : Type} {target : Target} {site : α → Site} {members : List α}
    {staged : List (α × List (Injection σ))} (surveyed : c.survey ask target site members = .ok staged) :
    ∀ m ∈ staged, m.1 ∈ members ∧ ask (site m.1) = .ok m.2 := by
  unfold survey at surveyed
  split at surveyed
  · intro m mem
    obtain ⟨m', shown, told⟩ := forall₂_mem_right (except_mapM_eq_ok.1 surveyed) mem
    obtain ⟨l, asked, same⟩ := except_bind_eq_ok.1 told
    cases same
    exact ⟨(List.mem_filter.1 shown).1, asked⟩
  · cases surveyed
    exact fun m mem => nomatch mem

include asks keyed

/-- A class is composed to what is asked for at it and at its members. -/
theorem composeAll_gives {s : ClassSite} (inside : ∀ site ∈ s.sites, known site) :
    Gives (c.Recalling ask known) (c.composeAll s)
      (c.surveyAll ask s) := by
  have whole : known (.ofClass s) := inside _ (ClassSite.mem_sites.2 (.inl rfl))
  have field : ∀ f ∈ s.fields, known (.ofField f) := fun f mem =>
    inside _ (ClassSite.mem_sites.2 (.inr (.inl ⟨f, mem, rfl⟩)))
  have method : ∀ m ∈ s.methods, known (.ofMethod m) := fun m mem =>
    inside _ (ClassSite.mem_sites.2 (.inr (.inr ⟨m, mem, rfl⟩)))
  refine (stage_gives asks whole).bind fun additions asked => ?_
  refine (stageMembers_gives asks field).bind fun fields surveyed => ?_
  refine (stageMembers_gives asks method).bind fun methods surveyed' => ?_
  have fields' := commitMembers_gives (c := c) keyed fun m mem =>
    (asked_of_survey surveyed m mem).imp_left fun shown => field m.1 shown
  have methods' := commitMembers_gives (c := c) keyed fun m mem =>
    (asked_of_survey surveyed' m mem).imp_left fun shown => method m.1 shown
  exact (commit_gives keyed whole asked).andThen (fields'.andThen (methods'.andThen (.pure _)))

end Recalls

end Composer

end Weft
