import Mathlib.Data.List.Induction
import Weft.Proofs.Steps
import Weft.Site.Cache

/-!
# The index of names of a cache

A cache of sites starts empty and serves calls that materialize an image, insert a site or evict an
artifact. What it finds under the name of a class is told by the sites that it inserted: it is the
site that was inserted last under that name, as long as its artifact is cached. An eviction of an
artifact that the name does not stand for leaves the name as it is. When the artifact of the last one
is evicted, nothing is found under the name, even if another class of the name is cached still.
-/

namespace Weft.SiteCache

variable {c : SiteCache} {s : ClassSite} {a b : ArtifactId} {name : ClassName}

/-! ## The two maps -/

/-- The site that is kept when `s` is inserted. -/
def kept (s : ClassSite) (c : SiteCache) : ClassSite := (c.get? s.artifact).getD s

theorem insert_fst (s : ClassSite) (c : SiteCache) : (insert s c).1 = c.kept s :=
  Std.HashMap.getD_eq_getD_getElem?

theorem names_insert (s : ClassSite) (c : SiteCache) (name : ClassName) :
    (insert s c).2.names[name]? =
      if (c.kept s).name = name then some (c.kept s).artifact else c.names[name]? := by
  show (c.names.insert (insert s c).1.name (insert s c).1.artifact)[name]? = _
  rw [insert_fst, Std.HashMap.getElem?_insert]
  simp only [beq_iff_eq]

theorem get?_insert (s : ClassSite) (c : SiteCache) (b : ArtifactId) :
    (insert s c).2.get? b = if s.artifact = b then some (c.kept s) else c.get? b := by
  show (c.sites.insertIfNew s.artifact s)[b]? = _
  rw [Std.HashMap.getElem?_insertIfNew]
  by_cases same : s.artifact = b
  · subst same
    cases found : c.get? s.artifact with
    | none =>
      have fresh : s.artifact ∉ c.sites := by
        rw [Std.HashMap.mem_iff_isSome_getElem?, show c.sites[s.artifact]? = none from found]
        exact Bool.false_ne_true
      rw [if_pos ⟨beq_self_eq_true _, fresh⟩, if_pos rfl, kept, found]
      rfl
    | some t =>
      have found' : c.sites[s.artifact]? = some t := found
      have present : s.artifact ∈ c.sites := by
        rw [Std.HashMap.mem_iff_isSome_getElem?, found']
        rfl
      rw [if_neg fun fresh => fresh.2 present, if_pos rfl, kept, found, found']
      rfl
  · rw [if_neg fun fresh => same (eq_of_beq fresh.1), if_neg same]
    rfl

theorem evict_of_none (absent : c.get? a = none) : (evict a c).2 = c := by
  simp only [evict, modify, modifyGet, MonadStateOf.modifyGet, StateT.modifyGet, absent]
  rfl

theorem evict_of_some (found : c.get? a = some s) : (evict a c).2 =
    { c with
      sites := c.sites.erase a
      names := if c.names[s.name]? = some a then c.names.erase s.name else c.names } := by
  simp only [evict, modify, modifyGet, MonadStateOf.modifyGet, StateT.modifyGet, found]
  rfl

theorem get?_evict (a : ArtifactId) (c : SiteCache) (b : ArtifactId) :
    (evict a c).2.get? b = if a = b then none else c.get? b := by
  cases found : c.get? a with
  | none =>
    rw [evict_of_none found]
    split
    · rename_i same
      exact same ▸ found
    · rfl
  | some s =>
    rw [evict_of_some found]
    show (c.sites.erase a)[b]? = _
    rw [Std.HashMap.getElem?_erase]
    simp only [beq_iff_eq]
    rfl

@[simp] theorem options_evict (a : ArtifactId) (c : SiteCache) :
    (evict a c).2.options = c.options := by
  cases found : c.get? a with
  | none => rw [evict_of_none found]
  | some s => rw [evict_of_some found]

/-- An eviction forgets the name of the class if it stands for the artifact. -/
theorem names_evict (a : ArtifactId) (c : SiteCache) (name : ClassName) :
    (evict a c).2.names[name]? =
      if (c.get? a).map (·.name) = some name ∧ c.names[name]? = some a then none
      else c.names[name]? := by
  cases found : c.get? a with
  | none =>
    rw [evict_of_none found]
    simp
  | some s =>
    rw [evict_of_some found]
    simp only [Option.map_some, Option.some.injEq]
    by_cases own : s.name = name
    · subst own
      by_cases stands : c.names[s.name]? = some a
      · simp [stands]
      · simp [stands]
    · have other : ¬(s.name = name ∧ c.names[name]? = some a) := fun both => own both.1
      rw [if_neg other]
      split
      · rw [Std.HashMap.getElem?_erase, if_neg (by simpa using own)]
      · rfl

theorem materialize_of_some {image : Bytes} (found : c.get? (Digest.sha1 image) = some s)
    (decoding : Nat) : materialize decoding image c = .ok s c := by
  unfold materialize
  rw [step_get_bind, found]
  rfl

theorem materialize_of_none {image : Bytes} (absent : c.get? (Digest.sha1 image) = none)
    (decoding : Nat) : materialize decoding image c =
      match ClassSite.ofBytes c.options decoding image with
      | .ok s => .ok (insert s c).1 (insert s c).2
      | .error e => .error e c := by
  unfold materialize
  rw [step_get_bind, absent]
  cases ClassSite.ofBytes c.options decoding image <;> rfl

/-! ## Calls -/

/-- What is asked of a cache. -/
inductive Call where
  | materialize (decoding : Nat) (image : Bytes)
  | insert (s : ClassSite)
  | evict (artifact : ArtifactId)

/-- A cache and the sites that it inserted, in their order. -/
structure History where
  cache : SiteCache
  inserted : List ClassSite := []

namespace History

/-- What happened when the call was served or refused. -/
def serve (h : History) : Call → History
  | .materialize decoding image =>
    match h.cache.get? (Digest.sha1 image), SiteCache.materialize decoding image h.cache with
    | none, .ok site c => ⟨c, h.inserted ++ [site]⟩
    | _, .ok _ c | _, .error _ c => ⟨c, h.inserted⟩
  | .insert s =>
    let (site, c) := SiteCache.insert s h.cache
    ⟨c, h.inserted ++ [site]⟩
  | .evict artifact => ⟨(SiteCache.evict artifact h.cache).2, h.inserted⟩

/-- What happened in a cache that was empty before. -/
def ofCalls (options : DecodeOptions) (calls : List Call) : History :=
  calls.foldl serve { cache := { options } }

/-- The site that was inserted last of the classes of that name. -/
def last? (h : History) (name : ClassName) : Option ClassSite :=
  (h.inserted.filter (·.name = name)).getLast?

variable {h : History}

theorem serve_insert (h : History) (s : ClassSite) :
    h.serve (.insert s) = ⟨(SiteCache.insert s h.cache).2, h.inserted ++ [h.cache.kept s]⟩ := by
  rw [← insert_fst]
  rfl

/-- An image that is cached, or that is not read, changes nothing; each other one is inserted. -/
theorem serve_materialize (h : History) (decoding : Nat) (image : Bytes) :
    h.serve (.materialize decoding image) = h ∨
      ∃ s, ClassSite.ofBytes h.cache.options decoding image = .ok s ∧
        h.serve (.materialize decoding image) = h.serve (.insert s) := by
  unfold serve
  dsimp only
  cases found : h.cache.get? (Digest.sha1 image) with
  | some site =>
    rw [materialize_of_some found]
    exact .inl rfl
  | none =>
    rw [materialize_of_none found]
    cases decoded : ClassSite.ofBytes h.cache.options decoding image with
    | error e => exact .inl rfl
    | ok s => exact .inr ⟨s, rfl, rfl⟩

theorem last?_concat (c : SiteCache) (inserted : List ClassSite) (s : ClassSite)
    (name : ClassName) : (History.mk c (inserted ++ [s])).last? name =
      if s.name = name then some s else (History.mk c inserted).last? name := by
  unfold last?
  rw [List.filter_append, List.filter_singleton]
  by_cases own : s.name = name
  · simp [own]
  · simp [own]

theorem name_of_last? (found : h.last? name = some s) : s.name = name := by
  have mem := List.mem_of_getLast? found
  simpa using (List.mem_filter.1 mem).2

/-! ## What the insertions tell -/

/-- What is cached was inserted and is cached under its artifact, and a name stands for the artifact
of the site that was inserted last under it, as long as that is cached for a class of the name. -/
structure Indexed (h : History) : Prop where
  own : ∀ a s, h.cache.get? a = some s → s.artifact = a
  inserted : ∀ a s, h.cache.get? a = some s → s ∈ h.inserted
  names : ∀ name, h.cache.names[name]? = (h.last? name).bind fun t =>
    ((h.cache.get? t.artifact).filter (·.name = name)).map (·.artifact)

theorem indexed_empty (options : DecodeOptions) : Indexed { cache := { options } } where
  own _ _ found := nomatch Std.HashMap.getElem?_empty.symm.trans found
  inserted _ _ found := nomatch Std.HashMap.getElem?_empty.symm.trans found
  names _ := Std.HashMap.getElem?_empty

namespace Indexed

theorem artifact_kept (i : h.Indexed) (s : ClassSite) :
    (h.cache.kept s).artifact = s.artifact := by
  unfold kept
  cases found : h.cache.get? s.artifact with
  | none => rfl
  | some t => exact i.own _ t found

theorem insert (i : h.Indexed) (s : ClassSite) : (h.serve (.insert s)).Indexed := by
  have artifact := i.artifact_kept s
  rw [serve_insert]
  constructor
  case own =>
    intro a t found
    rw [get?_insert] at found
    split at found
    · rename_i here
      cases found
      exact artifact.trans here
    · exact i.own a t found
  case inserted =>
    intro a t found
    rw [get?_insert] at found
    split at found
    · cases found
      exact List.mem_append_right _ (List.mem_singleton_self _)
    · exact List.mem_append_left _ (i.inserted a t found)
  case names =>
    intro name
    rw [names_insert, last?_concat]
    dsimp only
    by_cases own : (h.cache.kept s).name = name
    · rw [if_pos own, if_pos own, Option.bind_some, artifact, get?_insert, if_pos rfl,
        Option.filter_some, if_pos (by simpa using own), Option.map_some, artifact]
    · -- A site that was inserted earlier for this artifact has made place for one of another name.
      rw [if_neg own, if_neg own, i.names name]
      refine Option.bind_congr fun t last => ?_
      rw [get?_insert]
      split
      · rename_i here
        rw [← here]
        cases found : h.cache.get? s.artifact with
        | none =>
          rw [Option.filter_some, if_neg (by simpa using own)]
          rfl
        | some u => rw [kept, found, Option.getD_some]
      · rfl

theorem cached_of_evict {t : ClassSite}
    (found : (h.serve (.evict a)).cache.get? b = some t) : h.cache.get? b = some t := by
  have found : (SiteCache.evict a h.cache).2.get? b = some t := found
  rw [get?_evict] at found
  split at found
  · cases found
  · exact found

theorem evict (i : h.Indexed) (a : ArtifactId) : (h.serve (.evict a)).Indexed where
  own b t found := i.own b t (cached_of_evict found)
  inserted b t found := i.inserted b t (cached_of_evict found)
  names name := by
    show (SiteCache.evict a h.cache).2.names[name]? = (h.last? name).bind fun t =>
      (((SiteCache.evict a h.cache).2.get? t.artifact).filter (·.name = name)).map (·.artifact)
    rw [names_evict, i.names name]
    cases h.last? name with
    | none => simp
    | some t =>
      rw [Option.bind_some, Option.bind_some, get?_evict]
      by_cases here : a = t.artifact
      · subst here
        cases found : h.cache.get? t.artifact with
        | none => simp
        | some u =>
          have := i.own _ u found
          by_cases own : u.name = name <;> simp [own, this]
      · rw [if_neg here]
        refine if_neg fun stands => here ?_
        obtain ⟨u, found, same⟩ := Option.map_eq_some_iff.1 stands.2
        rw [← same]
        exact i.own _ u (Option.filter_eq_some_iff.1 found).1

theorem serve (i : h.Indexed) (call : Call) : (h.serve call).Indexed := by
  cases call with
  | materialize decoding image =>
    rcases h.serve_materialize decoding image with same | ⟨s, -, same⟩
    · rwa [same]
    · rw [same]
      exact i.insert s
  | insert s => exact i.insert s
  | evict a => exact i.evict a

/-- Under a name the site is found that was inserted last under it, if its artifact is cached. -/
theorem byName?_eq (i : h.Indexed) (name : ClassName) : h.cache.byName? name =
    (h.last? name).bind fun t => (h.cache.get? t.artifact).filter (·.name = name) := by
  unfold byName?
  rw [i.names]
  cases h.last? name with
  | none => rfl
  | some t =>
    rw [Option.bind_some, Option.bind_some]
    cases found : (h.cache.get? t.artifact).filter (·.name = name) with
    | none => rfl
    | some u =>
      have cached := (Option.filter_eq_some_iff.1 found).1
      rw [Option.map_some, Option.bind_some, i.own _ u cached, cached]

theorem byName?_eq_some_iff (i : h.Indexed) : h.cache.byName? name = some s ↔
    ∃ t, h.last? name = some t ∧ h.cache.get? t.artifact = some s ∧ s.name = name := by
  rw [i.byName?_eq, Option.bind_eq_some_iff]
  simp only [Option.filter_eq_some_iff, decide_eq_true_eq]

/-- While the site that was inserted last under a name is cached, something is found under the name
just if a class of that name is cached. -/
theorem isSome_byName?_iff (i : h.Indexed)
    (current : ∀ t, h.last? name = some t → h.cache.get? t.artifact = some t) :
    (h.cache.byName? name).isSome ↔ ∃ a s, h.cache.get? a = some s ∧ s.name = name := by
  rw [Option.isSome_iff_exists]
  constructor
  case mp =>
    rintro ⟨s, found⟩
    obtain ⟨t, -, cached, named⟩ := i.byName?_eq_some_iff.1 found
    exact ⟨_, s, cached, named⟩
  case mpr =>
    rintro ⟨a, s, cached, named⟩
    have mem : s ∈ h.inserted.filter (·.name = name) :=
      List.mem_filter.2 ⟨i.inserted a s cached, by simpa using named⟩
    have last : h.last? name = some _ := List.getLast?_eq_some_getLast (List.ne_nil_of_mem mem)
    exact ⟨_, i.byName?_eq_some_iff.2 ⟨_, last, current _ last, name_of_last? last⟩⟩

/-- An eviction leaves what is found under each name that does not stand for the artifact. -/
theorem byName?_evict_of_ne (i : h.Indexed)
    (other : ∀ t, h.last? name = some t → a ≠ t.artifact) :
    (h.serve (.evict a)).cache.byName? name = h.cache.byName? name := by
  rw [(i.evict a).byName?_eq, i.byName?_eq]
  refine Option.bind_congr fun t last => ?_
  show ((SiteCache.evict a h.cache).2.get? t.artifact).filter _ = _
  rw [get?_evict, if_neg (other t last)]

/-- Nothing is found under a name once the site is evicted that was inserted last under it. -/
theorem byName?_evict_of_last? (i : h.Indexed) {t : ClassSite} (last : h.last? name = some t) :
    (h.serve (.evict t.artifact)).cache.byName? name = none := by
  have last : (h.serve (.evict t.artifact)).last? name = some t := last
  rw [(i.evict t.artifact).byName?_eq, last, Option.bind_some]
  show ((SiteCache.evict t.artifact h.cache).2.get? t.artifact).filter _ = none
  rw [get?_evict, if_pos rfl, Option.filter_none]

/-- A class that comes and goes leaves all sites as they were, but its name stands for none of them
any more, whatever was found under it before. -/
theorem insert_evict (i : h.Indexed) (fresh : h.cache.get? s.artifact = none) :
    let h' := (h.serve (.insert s)).serve (.evict s.artifact)
    (∀ a, h'.cache.get? a = h.cache.get? a) ∧ h'.cache.byName? s.name = none := by
  have new : h.cache.kept s = s := by
    rw [kept, fresh, Option.getD_none]
  constructor
  case left =>
    intro a
    rw [serve_insert]
    show (SiteCache.evict s.artifact (SiteCache.insert s h.cache).2).2.get? a = h.cache.get? a
    rw [get?_evict, get?_insert]
    split
    · rename_i here
      exact here ▸ fresh.symm
    · rfl
  case right =>
    have last : (h.serve (.insert s)).last? s.name = some s := by
      rw [serve_insert, last?_concat, new, if_pos rfl]
    exact (i.insert s).byName?_evict_of_last? last

end Indexed

theorem indexed_ofCalls (options : DecodeOptions) (calls : List Call) :
    (ofCalls options calls).Indexed := by
  induction calls using List.reverseRecOn with
  | nil => exact indexed_empty options
  | append_singleton calls call ih =>
    unfold ofCalls
    rw [List.foldl_concat]
    exact ih.serve call

end History

end Weft.SiteCache
