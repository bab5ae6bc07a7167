import Weft.Proofs.Visitor.Purity

/-!
# Classes composed as a whole

A class is composed in two passes. The first only looks at the cache, so that a refusal, which may
come from any member, leaves the cache as it was. The second stores what was staged, cannot fail, and
answers what is stored. What is stored is never replaced; so from then on the sites of the class are
answered from the cache, and no visitor is shown them again.
-/

namespace Weft

variable {σ : Type}

/-! ## Caches that grow -/

namespace PlanCache

variable {c c' c'' : PlanCache σ} {key key' : SiteKey} {id id' : VisitorSetId}
  {l l' : List (Injection σ)}

/-- What is found in the first cache is found in the second. -/
def Within (c c' : PlanCache σ) : Prop :=
  ∀ key id l, c.get? key id = some l → c'.get? key id = some l

theorem Within.refl (c : PlanCache σ) : c.Within c := fun _ _ _ found => found

theorem Within.trans (h : c.Within c') (h' : c'.Within c'') : c.Within c'' :=
  fun key id l found => h' key id l (h key id l found)

/-- Storing touches one key, and only if nothing is there. -/
theorem get?_store_eq (c : PlanCache σ) (key key' : SiteKey) (id id' : VisitorSetId)
    (l : List (Injection σ)) : (store key id l c).2.get? key' id' =
      if (key, id) = (key', id') ∧ c.get? key' id' = none then some l else c.get? key' id' := by
  show (c.entries.insertIfNew (key, id) l)[(key', id')]? = if _ then _ else c.entries[(key', id')]?
  rw [Std.HashMap.getElem?_insertIfNew]
  refine if_congr ?_ rfl rfl
  rw [beq_iff_eq]
  refine and_congr_right fun same => ?_
  rw [same, get?, ← Option.not_isSome_iff_eq_none, ← Std.HashMap.mem_iff_isSome_getElem?]

theorem within_store (c : PlanCache σ) (key : SiteKey) (id : VisitorSetId)
    (l : List (Injection σ)) : c.Within (store key id l c).2 := by
  intro key' id' l' found
  rw [get?_store_eq, if_neg (by simp [found]), found]

/-- All keys are found behind a change, for visitors `id`; else nothing is new, and nothing that was
there is another. -/
structure Stores (id : VisitorSetId) (keys : List SiteKey) (c c' : PlanCache σ) : Prop where
  kept : c.Within c'
  found : ∀ key ∈ keys, ∃ l, c'.get? key id = some l
  only : ∀ key id' l, c'.get? key id' = some l → c.get? key id' = some l ∨ id' = id ∧ key ∈ keys

namespace Stores

theorem nothing (id : VisitorSetId) (c : PlanCache σ) : Stores id [] c c where
  kept := .refl c
  found _ mem := nomatch mem
  only _ _ _ found := .inl found

theorem append {keys keys' : List SiteKey} (h : Stores id keys c c') (h' : Stores id keys' c' c'') :
    Stores id (keys ++ keys') c c'' where
  kept := h.kept.trans h'.kept
  found key mem := by
    rcases List.mem_append.1 mem with mem | mem
    · obtain ⟨l, found⟩ := h.found key mem
      exact ⟨l, h'.kept key id l found⟩
    · exact h'.found key mem
  only key id' l found := by
    rcases h'.only key id' l found with found | ⟨same, mem⟩
    · exact (h.only key id' l found).imp_right fun ⟨same, mem⟩ =>
        ⟨same, List.mem_append_left _ mem⟩
    · exact .inr ⟨same, List.mem_append_right _ mem⟩

theorem store (c : PlanCache σ) (key : SiteKey) (id : VisitorSetId) (l : List (Injection σ)) :
    Stores id [key] c (PlanCache.store key id l c).2 where
  kept := c.within_store key id l
  found key' mem := by
    obtain rfl := List.mem_singleton.1 mem
    exact ⟨_, c.get?_store key' id l⟩
  only key' id' l' found := by
    rw [get?_store_eq] at found
    split at found
    · rename_i here
      cases here.1
      exact .inr ⟨rfl, List.mem_singleton_self key⟩
    · exact .inl found

/-- Where all keys are found already, nothing changes. -/
theorem same {keys : List SiteKey} (h : Stores id keys c c')
    (there : ∀ key ∈ keys, ∃ l, c.get? key id = some l) (key : SiteKey) (id' : VisitorSetId) :
    c'.get? key id' = c.get? key id' := by
  refine Option.ext fun l => ⟨fun found => ?_, h.kept key id' l⟩
  rcases h.only key id' l found with old | ⟨rfl, mem⟩
  · exact old
  · obtain ⟨l', old⟩ := there key mem
    rw [h.kept key id' l' old] at found
    rwa [← found]

end Stores

/-! ## What is stored for a class -/

/-- What is stored for members, less those that have no injections. -/
def listed {α : Type} (c : PlanCache σ) (id : VisitorSetId) (site : α → Site) (members : List α) :
    List (α × List (Injection σ)) :=
  (members.map fun m => (m, (c.get? (site m).key id).getD [])).filter (!·.2.isEmpty)

theorem getD_of_within (within : c.Within c') (there : ∃ l, c.get? key id = some l) :
    (c'.get? key id).getD [] = (c.get? key id).getD [] := by
  obtain ⟨l, found⟩ := there
  rw [found, within key id l found]

theorem listed_of_within {α : Type} {site : α → Site} {members : List α} (within : c.Within c')
    (there : ∀ m ∈ members, ∃ l, c.get? (site m).key id = some l) :
    c'.listed id site members = c.listed id site members := by
  refine congrArg (List.filter _) (List.map_congr_left fun m mem => ?_)
  rw [getD_of_within within (there m mem)]

end PlanCache

namespace Composer

variable {α : Type} {c c' : Composer σ} {site : Site} {place : α → Site} {s : ClassSite}
  {t t' : Composing σ}

/-- The members that visitors are shown with a whole class. -/
def shown (c : Composer σ) (target : Target) (place : α → Site) (members : List α) : List α :=
  if c.visitors.handles target then
    members.filter fun m => !(c.skipSynthetic && (place m).isSynthetic)
  else []

/-- The class and the members that visitors are shown with it. -/
def sites (c : Composer σ) (s : ClassSite) : List Site :=
  .ofClass s :: ((c.shown .ofField .ofField s.fields).map .ofField ++
    (c.shown .ofMethod .ofMethod s.methods).map .ofMethod)

/-- The composition of a class as it is stored. -/
def stored (c : Composer σ) (s : ClassSite) (cache : PlanCache σ) : Composition σ where
  site := s
  additions := (cache.get? (Site.ofClass s).key c.visitors.id).getD []
  fields := cache.listed c.visitors.id .ofField (c.shown .ofField .ofField s.fields)
  methods := cache.listed c.visitors.id .ofMethod (c.shown .ofMethod .ofMethod s.methods)

theorem keys_sites (c : Composer σ) (s : ClassSite) : (c.sites s).map (·.key) =
    [(Site.ofClass s).key] ++ ((c.shown .ofField .ofField s.fields).map (Site.ofField · |>.key) ++
      (c.shown .ofMethod .ofMethod s.methods).map (Site.ofMethod · |>.key)) := by
  rw [sites, List.map_cons, List.map_append, List.map_map, List.map_map]
  rfl

theorem field_mem_sites {f : FieldSite} (mem : f ∈ c.shown .ofField .ofField s.fields) :
    .ofField f ∈ c.sites s :=
  List.mem_cons_of_mem _ (List.mem_append_left _ (List.mem_map_of_mem mem))

theorem method_mem_sites {m : MethodSite} (mem : m ∈ c.shown .ofMethod .ofMethod s.methods) :
    .ofMethod m ∈ c.sites s :=
  List.mem_cons_of_mem _ (List.mem_append_right _ (List.mem_map_of_mem mem))

/-- Whatever is asked of a cache that has all sites, a cache that it is within answers alike. -/
theorem stored_of_within {cache cache' : PlanCache σ} (within : cache.Within cache')
    (there : ∀ site ∈ c.sites s, ∃ l, cache.get? site.key c.visitors.id = some l) :
    c.stored s cache' = c.stored s cache := by
  unfold stored
  rw [PlanCache.getD_of_within within (there _ List.mem_cons_self),
    PlanCache.listed_of_within within fun f mem => there _ (field_mem_sites mem),
    PlanCache.listed_of_within within fun m mem => there _ (method_mem_sites mem)]

/-! ## The first pass -/

theorem stage_maintains {I : PlanCache σ → Prop} (site : Site) :
    Maintains (fun t : Composing σ => I t.cache) (c.stage site) fun _ => True := by
  refine Maintains.get.bind fun t before => ?_
  cases t.cache.get? site.key c.visitors.id with
  | none => exact visitAll_maintains site
  | some l => exact .pure trivial

theorem stageMembers_maintains {I : PlanCache σ → Prop} (target : Target) (members : List α) :
    Maintains (fun t : Composing σ => I t.cache) (c.stageMembers target place members)
      fun _ => True := by
  refine .ite (fun _ => ?_) fun _ => .pure trivial
  refine (Maintains.mapM (Q := fun _ => True) fun m _ => ?_).weaken fun _ _ => trivial
  exact (stage_maintains (place m)).bind fun _ _ => .pure trivial

/-- The members that are staged are those that are shown. -/
theorem shown_of_stageMembers {target : Target} {members : List α}
    {staged : List (α × List (Injection σ))}
    (h : c.stageMembers target place members t = .ok staged t') :
    staged.map (·.1) = c.shown target place members := by
  unfold stageMembers at h
  unfold shown
  split at h
  · rw [if_pos ‹_›]
    refine (step_mapM_map_eq (g := id) (fun m t b t' made => ?_) h).trans (List.map_id _)
    obtain ⟨l, t₁, -, made⟩ := step_bind_eq_ok.1 made
    obtain ⟨rfl, -⟩ := step_pure_eq_ok.1 made
    rfl
  · rw [if_neg ‹_›]
    obtain ⟨rfl, -⟩ := step_pure_eq_ok.1 h
    rfl

/-- A site that is stored is staged without being shown to a visitor. -/
theorem stage_of_stored {l : List (Injection σ)}
    (found : t.cache.get? site.key c.visitors.id = some l) : c.stage site t = .ok l t := by
  unfold stage
  rw [step_get_bind, found]
  rfl

theorem stageMembers_of_stored (target : Target) (place : α → Site) (members : List α)
    (found : ∀ m ∈ c.shown target place members,
      ∃ l, t.cache.get? (place m).key c.visitors.id = some l) :
    ∃ staged, c.stageMembers target place members t = .ok staged t := by
  unfold stageMembers shown at *
  split at found
  · rw [if_pos ‹_›]
    generalize members.filter _ = shown at found ⊢
    induction shown with
    | nil => exact ⟨[], rfl⟩
    | cons m rest ih =>
      obtain ⟨l, here⟩ := found m List.mem_cons_self
      obtain ⟨staged, others⟩ := ih fun m' mem => found m' (List.mem_cons_of_mem m mem)
      refine ⟨(m, l) :: staged, step_mapM_cons_eq_ok.2 ⟨_, staged, t, ?_, others, rfl⟩⟩
      exact step_bind_eq_ok.2 ⟨l, t, stage_of_stored here, rfl⟩
  · rw [if_neg ‹_›]
    exact ⟨[], rfl⟩

/-! ## The second pass -/

/-- Committing stores the site and answers what is stored for it. -/
theorem commit_stores (site : Site) (l : List (Injection σ)) (t : Composing σ) :
    ∃ kept cache, c.commit site l t = .ok kept { t with cache } ∧
      PlanCache.Stores c.visitors.id [site.key] t.cache cache ∧
      cache.get? site.key c.visitors.id = some kept :=
  ⟨_, _, rfl, .store t.cache site.key c.visitors.id l, t.cache.get?_store site.key c.visitors.id l⟩

theorem commitEach_stores (c : Composer σ) (place : α → Site)
    (staged : List (α × List (Injection σ))) (t : Composing σ) :
    ∃ cache, (staged.mapM fun m => do return (m.1, ← c.commit (place m.1) m.2) :
          Compose σ (List (α × List (Injection σ)))) t =
        .ok (staged.map fun m => (m.1, (cache.get? (place m.1).key c.visitors.id).getD []))
          { t with cache } ∧
      PlanCache.Stores c.visitors.id (staged.map fun m => (place m.1).key) t.cache cache := by
  induction staged generalizing t with
  | nil => exact ⟨t.cache, rfl, .nothing _ _⟩
  | cons m rest ih =>
    obtain ⟨kept, first, committed, one, here⟩ := commit_stores (c := c) (place m.1) m.2 t
    obtain ⟨cache, others, all⟩ := ih { t with cache := first }
    refine ⟨cache, ?_, one.append all⟩
    rw [List.map_cons, all.kept _ _ _ here]
    refine step_mapM_cons_eq_ok.2 ⟨_, _, _, ?_, others, rfl⟩
    exact step_bind_eq_ok.2 ⟨kept, _, committed, rfl⟩

/-- Committing members stores each, and answers what is stored for those that have injections. -/
theorem commitMembers_stores (c : Composer σ) (place : α → Site)
    (staged : List (α × List (Injection σ))) (t : Composing σ) :
    ∃ cache, c.commitMembers place staged t =
        .ok (cache.listed c.visitors.id place (staged.map (·.1))) { t with cache } ∧
      PlanCache.Stores c.visitors.id ((staged.map (·.1)).map fun m => (place m).key)
        t.cache cache := by
  obtain ⟨cache, each, stores⟩ := commitEach_stores c place staged t
  refine ⟨cache, ?_, by rwa [List.map_map]⟩
  unfold commitMembers
  refine step_bind_eq_ok.2 ⟨_, _, each, ?_⟩
  rw [PlanCache.listed, List.map_map]
  rfl

/-- The second pass stores all sites that are shown, and answers what is stored. -/
theorem commitAll_stores {fields : List (FieldSite × List (Injection σ))}
    {methods : List (MethodSite × List (Injection σ))} (additions : List (Injection σ))
    (shown : fields.map (·.1) = c.shown .ofField .ofField s.fields)
    (shown' : methods.map (·.1) = c.shown .ofMethod .ofMethod s.methods) (t : Composing σ) :
    ∃ cache, (do return ⟨s, ← c.commit (.ofClass s) additions, ← c.commitMembers .ofField fields,
          ← c.commitMembers .ofMethod methods⟩ : Compose σ (Composition σ)) t =
        .ok (c.stored s cache) { t with cache } ∧
      PlanCache.Stores c.visitors.id ((c.sites s).map (·.key)) t.cache cache := by
  obtain ⟨kept, cache₁, first, one, here⟩ := commit_stores (c := c) (.ofClass s) additions t
  obtain ⟨cache₂, second, two⟩ := commitMembers_stores c .ofField fields { t with cache := cache₁ }
  obtain ⟨cache₃, third, three⟩ :=
    commitMembers_stores c .ofMethod methods { t with cache := cache₂ }
  rw [shown] at second two
  rw [shown'] at third three
  refine ⟨cache₃, ?_, keys_sites c s ▸ one.append (two.append three)⟩
  have fields_there : ∀ f ∈ c.shown .ofField .ofField s.fields,
      ∃ l, cache₂.get? (Site.ofField f).key c.visitors.id = some l :=
    fun f mem => two.found _ (List.mem_map_of_mem mem)
  unfold stored
  rw [three.kept _ _ _ (two.kept _ _ _ here), PlanCache.listed_of_within three.kept fields_there]
  exact (step_bind_ok first).trans ((step_bind_ok second).trans ((step_bind_ok third).trans rfl))

/-- Both passes: a refusal leaves the cache, and a success stores all sites that are shown. -/
theorem composeAll_cases (c : Composer σ) (s : ClassSite) (t : Composing σ) :
    (∃ e world, c.composeAll s t = .error e { t with world }) ∨
      ∃ cache world, c.composeAll s t = .ok (c.stored s cache) ⟨cache, world⟩ ∧
        PlanCache.Stores c.visitors.id ((c.sites s).map (·.key)) t.cache cache := by
  have stay {β : Type} {x : Compose σ β}
      (h : Maintains (fun u : Composing σ => u.cache = t.cache) x fun _ => True) (w : σ) :
      (∃ e world, x { t with world := w } = .error e { t with world }) ∨
        ∃ b world, x { t with world := w } = .ok b { t with world } := by
    cases done : x { t with world := w } with
    | error e u =>
      refine .inl ⟨e, u.world, ?_⟩
      rw [← h.error { t with world := w } e u rfl done]
    | ok b u =>
      refine .inr ⟨b, u.world, ?_⟩
      rw [← (h.ok { t with world := w } b u rfl done).1]
  unfold composeAll
  rcases stay (stage_maintains (I := (· = t.cache)) (.ofClass s)) t.world with
    ⟨e, w, failed⟩ | ⟨additions, w₁, first⟩
  · exact .inl ⟨e, w, step_bind_error failed⟩
  rcases stay (stageMembers_maintains (I := (· = t.cache)) .ofField s.fields) w₁ with
    ⟨e, w, failed⟩ | ⟨fields, w₂, second⟩
  · exact .inl ⟨e, w, (step_bind_ok first).trans (step_bind_error failed)⟩
  rcases stay (stageMembers_maintains (I := (· = t.cache)) .ofMethod s.methods) w₂ with
    ⟨e, w, failed⟩ | ⟨methods, w₃, third⟩
  · exact .inl ⟨e, w, (step_bind_ok first).trans ((step_bind_ok second).trans
      (step_bind_error failed))⟩
  obtain ⟨cache, committed, stores⟩ := commitAll_stores (c := c) additions
    (shown_of_stageMembers second) (shown_of_stageMembers third) { t with world := w₃ }
  exact .inr ⟨cache, w₃, (step_bind_ok first).trans ((step_bind_ok second).trans
    ((step_bind_ok third).trans committed)), stores⟩

/-! ## What is composed from then on -/

/-- What becomes of a state as long as its cache is not cleared: composers are asked, whoever they
ask, others store what they composed, and the world moves on. -/
inductive Continues (t : Composing σ) : Composing σ → Prop
  | here : Continues t t
  | answered {u : Composing σ} (c : Composer σ) (r : Request) (h : Continues t u) :
    Continues t ((c.answer r).attempt u).2
  | stored {u : Composing σ} (key : SiteKey) (id : VisitorSetId) (l : List (Injection σ))
    (h : Continues t u) : Continues t { u with cache := (PlanCache.store key id l u.cache).2 }
  | elapsed {u : Composing σ} (world : σ) (h : Continues t u) : Continues t { u with world }

theorem compose_within (c : Composer σ) (site : Site) (t : Composing σ) :
    t.cache.Within ((c.compose site).attempt t).2.cache := by
  have commits (l : List (Injection σ)) :
      Maintains (fun u => t.cache.Within u.cache) (c.commit site l) fun _ => True := by
    constructor
    case ok =>
      intro u kept u' before done
      cases done
      exact ⟨before.trans (u.cache.within_store _ _ _), trivial⟩
    case error =>
      intro u e u' before done
      cases done
  have composes : Maintains (fun u => t.cache.Within u.cache) (c.compose site) fun _ => True := by
    refine Maintains.get.bind fun u before => ?_
    cases u.cache.get? site.key c.visitors.id with
    | none => exact (visitAll_maintains site).bind fun l _ => commits l
    | some l => exact .pure trivial
  exact composes.attempt t (.refl t.cache)

theorem composeAll_within (c : Composer σ) (s : ClassSite) (t : Composing σ) :
    t.cache.Within ((c.composeAll s).attempt t).2.cache := by
  rcases c.composeAll_cases s t with ⟨e, world, refused⟩ | ⟨cache, world, composed, stores⟩
  · rw [Edit.attempt_of_error refused]
    exact .refl t.cache
  · rw [Edit.attempt_of_ok composed]
    exact stores.kept

/-- What is stored stays until the cache is cleared. -/
theorem Continues.within {u : Composing σ} (h : Continues t u) : t.cache.Within u.cache := by
  induction h with
  | here => exact .refl t.cache
  | @answered u c r _ ih =>
    cases r with
    | one site => exact ih.trans (c.compose_within site u)
    | whole s =>
      refine ih.trans ?_
      rw [answer, Edit.attempt_bind]
      have grown := c.composeAll_within s u
      cases done : (c.composeAll s).attempt u with
      | mk r u' =>
        rw [done] at grown
        cases r <;> exact grown
  | @stored u key id l _ ih => exact ih.trans (u.cache.within_store key id l)
  | elapsed world _ ih => exact ih

/-- A site that is stored is answered by what is stored, whatever visitors the composer has. -/
theorem compose_of_stored {l : List (Injection σ)}
    (found : t.cache.get? site.key c.visitors.id = some l) : c.compose site t = .ok l t := by
  unfold compose
  rw [step_get_bind, found]
  rfl

/-- A class all of whose sites are stored is answered by what is stored; the world stays, and nothing
is stored. -/
theorem composeAll_of_stored
    (found : ∀ site ∈ c.sites s, ∃ l, t.cache.get? site.key c.visitors.id = some l) :
    ∃ cache, c.composeAll s t = .ok (c.stored s t.cache) { t with cache } ∧
      ∀ key id, cache.get? key id = t.cache.get? key id := by
  obtain ⟨additions, here⟩ := found _ List.mem_cons_self
  obtain ⟨fields, first⟩ := stageMembers_of_stored .ofField .ofField s.fields
    fun f mem => found _ (field_mem_sites mem)
  obtain ⟨methods, second⟩ := stageMembers_of_stored .ofMethod .ofMethod s.methods
    fun m mem => found _ (method_mem_sites mem)
  obtain ⟨cache, committed, stores⟩ := commitAll_stores (c := c) additions
    (shown_of_stageMembers first) (shown_of_stageMembers second) t
  refine ⟨cache, ?_, stores.same fun key mem => ?_⟩
  · rw [← stored_of_within stores.kept found]
    unfold composeAll
    exact (step_bind_ok (stage_of_stored here)).trans ((step_bind_ok first).trans
      ((step_bind_ok second).trans committed))
  · obtain ⟨site, listed, rfl⟩ := List.mem_map.1 mem
    exact found site listed

/-- What a composition of the class leaves behind when it succeeds. -/
structure Settles (c : Composer σ) (s : ClassSite) (before : PlanCache σ) (after : Composing σ)
    (composition : Composition σ) : Prop where
  /-- There is an entry for each site that is shown, and none that was there is another. -/
  stores : PlanCache.Stores c.visitors.id ((c.sites s).map (·.key)) before after.cache
  /-- The answer is what is stored. -/
  answer : composition = c.stored s after.cache
  /-- Until the cache is cleared the sites are answered by what is stored, for any composer whose set
  of visitors has the same identity. The world stays, whatever these visitors do to it. -/
  again : ∀ later, Continues after later → ∀ c' : Composer σ, c'.visitors.id = c.visitors.id →
    ∀ site ∈ c.sites s, ∃ l, after.cache.get? site.key c.visitors.id = some l ∧
      c'.compose site later = .ok l later
  /-- So is the class, for a composer that shows none of its other members. -/
  wholeAgain : ∀ later, Continues after later → ∀ c' : Composer σ,
    c'.visitors.id = c.visitors.id → c'.sites s ⊆ c.sites s →
      ∃ cache, c'.composeAll s later = .ok (c'.stored s after.cache) { later with cache } ∧
        ∀ key id, cache.get? key id = later.cache.get? key id

/-- The composition of a class stores all or nothing, and what it has stored is final. -/
theorem composeAll_allOrNothing (c : Composer σ) (s : ClassSite) (t : Composing σ) :
    (∀ e t', c.composeAll s t = .error e t' → t'.cache = t.cache) ∧
      ∀ composition t', c.composeAll s t = .ok composition t' →
        c.Settles s t.cache t' composition := by
  rcases c.composeAll_cases s t with ⟨e, world, refused⟩ | ⟨cache, world, composed, stores⟩
  · rw [refused]
    refine ⟨fun e' t' failed => ?_, fun composition t' done => nomatch done⟩
    cases failed
    rfl
  · rw [composed]
    refine ⟨fun e t' failed => (nomatch failed), fun composition t' done => ?_⟩
    cases done
    have there : ∀ site ∈ c.sites s, ∃ l, cache.get? site.key c.visitors.id = some l :=
      fun site mem => stores.found _ (List.mem_map_of_mem mem)
    refine ⟨stores, rfl, fun later continues c' visitors site mem => ?_,
      fun later continues c' visitors fewer => ?_⟩
    · obtain ⟨l, found⟩ := there site mem
      refine ⟨l, found, compose_of_stored ?_⟩
      rw [visitors]
      exact continues.within _ _ _ found
    · have there' : ∀ site ∈ c'.sites s, ∃ l, cache.get? site.key c'.visitors.id = some l :=
        fun site mem => visitors ▸ there site (fewer mem)
      have still : ∀ site ∈ c'.sites s, ∃ l, later.cache.get? site.key c'.visitors.id = some l :=
        fun site mem => (there' site mem).imp fun l found => continues.within _ _ _ found
      obtain ⟨cache', again, same⟩ := composeAll_of_stored still
      exact ⟨cache', by rw [again, stored_of_within continues.within there'], same⟩

end Composer

end Weft
