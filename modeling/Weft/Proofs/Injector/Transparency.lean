import Mathlib.Data.Set.Function
import Weft.Proofs.Injector.Verification
import Weft.Proofs.Visitor.Purity

/-!
# Caches are transparent

An injector keeps sites by the digests of their images and what was composed by site and set of
visitors. With visitors that answer by what a site shows, and as long as the digests of the images do
not collide, it weaves what a new injector with the same visitors weaves: whatever it has cached is
what it would be told anew. Nothing that was composed before a visitor was added is cached behind it.
-/

namespace Weft

variable {σ : Type} {images : Set Bytes} {image : Bytes}

/-! ## Sites that are kept -/

/-- The sites that are kept are those of these images. -/
def SiteCache.Keeps (images : Set Bytes) (c : SiteCache) : Prop :=
  ∀ a site, c.get? a = some site → ∃ image ∈ images, a = Digest.sha1 image ∧
    ∃ decoding, ClassSite.ofBytes c.options decoding image = .ok site

namespace SiteCache

theorem keeps_empty (options : DecodeOptions) : SiteCache.Keeps images { options } :=
  fun _ _ found => nomatch Std.HashMap.getElem?_empty.symm.trans found

theorem Keeps.evict {c : SiteCache} (h : c.Keeps images) (a : ArtifactId) :
    (SiteCache.evict a c).2.Keeps images := by
  intro a' site kept
  rw [get?_evict] at kept
  split at kept
  · cases kept
  · rw [options_evict]
    exact h a' site kept

theorem Keeps.insert {c : SiteCache} (h : c.Keeps images) (involved : image ∈ images)
    {decoding : Nat} {site : ClassSite}
    (decoded : ClassSite.ofBytes c.options decoding image = .ok site) :
    (SiteCache.insert site c).2.Keeps images := by
  intro a site' kept
  rw [get?_insert] at kept
  split at kept
  · rename_i here
    rw [SiteCache.kept] at kept
    cases found : c.get? site.artifact with
    | some site'' =>
      rw [found] at kept
      cases kept
      exact here ▸ h _ _ found
    | none =>
      rw [found] at kept
      cases kept
      exact ⟨image, involved, here.symm.trans (ClassSite.artifact_of_ofBytes decoded),
        decoding, decoded⟩
  · exact h a site' kept

/-- The site of an image is a decoding of it, whether it was kept or not. -/
theorem materialize_maintains (apart : images.InjOn Digest.sha1) (involved : image ∈ images)
    (options : DecodeOptions) (decoding : Nat) :
    Maintains (fun c => SiteCache.Keeps images c ∧ c.options = options)
      (SiteCache.materialize decoding image)
      fun site => ∃ decoding, ClassSite.ofBytes options decoding image = .ok site := by
  refine Maintains.get.bind fun c before => ?_
  obtain ⟨keeps, rfl⟩ := before
  cases found : c.get? (Digest.sha1 image) with
  | some site =>
    obtain ⟨image', involved', digest, decoded⟩ := keeps _ site found
    exact .pure (apart involved involved' digest ▸ decoded)
  | none =>
    refine (Maintains.check fun site decoded => decoded).bind fun site decoded => ?_
    constructor
    case ok =>
      intro c' kept c'' before done
      obtain ⟨keeps', same⟩ := before
      cases done
      refine ⟨⟨keeps'.insert involved (same ▸ decoded), same⟩, ?_⟩
      show ∃ decoding, ClassSite.ofBytes _ decoding image = .ok (c'.sites.getD site.artifact site)
      rw [Std.HashMap.getD_eq_getD_getElem?]
      cases found' : c'.sites[site.artifact]? with
      | none => exact ⟨decoding, decoded⟩
      | some site' =>
        obtain ⟨image', involved', digest, decoded'⟩ := keeps' _ site' found'
        rw [ClassSite.artifact_of_ofBytes decoded] at digest
        exact same ▸ apart involved involved' digest ▸ decoded'
    case error =>
      intro c' e c'' before done
      cases done

end SiteCache

/-- What stays of a backend: what it decodes with and what it can weave. -/
structure Backend.Serves (images : Set Bytes) (options : DecodeOptions) (supported : Kinds)
    (b : Backend) : Prop where
  keeps : b.cache.Keeps images
  options : b.cache.options = options
  supported : b.supported = supported

theorem Backend.decode_maintains (apart : images.InjOn Digest.sha1) (involved : image ∈ images)
    (options : DecodeOptions) (supported : Kinds) :
    Maintains (Backend.Serves images options supported) (Backend.decode image)
      fun site => ∃ decoding, ClassSite.ofBytes options decoding image = .ok site := by
  have zoomed (n : Nat) : Maintains (Backend.Serves images options supported)
      ((SiteCache.materialize n image).zoom Backend.cache fun cache b => { b with cache })
      fun site => ∃ decoding, ClassSite.ofBytes options decoding image = .ok site :=
    .zoom (SiteCache.materialize_maintains apart involved options n)
      (fun b before => ⟨before.keeps, before.options⟩)
      fun b c before after => ⟨after.1, after.2, before.supported⟩
  have counted {b : Backend} (before : b.Serves images options supported) :
      Backend.Serves images options supported { b with asked := b.asked + 1 } :=
    ⟨before.keeps, before.options, before.supported⟩
  exact ⟨fun b site b' before done => (zoomed (b.asked + 1)).ok _ site b' (counted before) done,
    fun b e b' before done => (zoomed (b.asked + 1)).error _ e b' (counted before) done⟩

theorem Backend.Serves.release {options : DecodeOptions} {supported : Kinds} {b : Backend}
    (h : b.Serves images options supported) (s : ClassSite) :
    (b.release s).Serves images options supported :=
  ⟨h.keeps.evict s.artifact, (Injecting.options_release s b).trans h.options, h.supported⟩

namespace Injecting

variable {s t : Injecting σ}

/-! ## Histories of an injector -/

/-- A state that an injector can come to that gets visitors which answer by what a site shows, and
these images. Its backend may have been in use, and others may use it in between. -/
inductive Works (images : Set Bytes) : Injecting σ → Prop
  | made (name : String) (config : Config) {backend : Backend} (ledger : Weave.Ledger σ)
    (number : Nat) (world : σ) (keeps : backend.cache.Keeps images) :
    Works images ⟨{ name, config, backend, ledger, visitors := { number } }, world⟩
  | visited {s : Injecting σ} {v : Visitor σ} (pure : v.Pure) (h : Works images s) :
    Works images (update (·.addVisitor v) s)
  | transformed {s : Injecting σ} {image : Bytes} (involved : image ∈ images)
    (h : Works images s) : Works images ((transform image).attempt s).2
  /-- Others decode images, register callbacks, number helpers and act on the world. -/
  | elapsed {s : Injecting σ} {backend : Backend} (ledger : Weave.Ledger σ) (world : σ)
    (serves : backend.Serves images s.injector.backend.cache.options s.injector.backend.supported)
    (h : Works images s) : Works images ⟨{ s.injector with backend, ledger }, world⟩

/-- The site is one of a class that is read from one of the images. -/
def Known (images : Set Bytes) (options : DecodeOptions) (site : Site) : Prop :=
  ∃ image ∈ images, ∃ decoding s, ClassSite.ofBytes options decoding image = .ok s ∧ site ∈ s.sites

/-- What holds of the injector between images: what it has cached is what its visitors answer, in
whichever world they are asked. -/
structure Clear (images : Set Bytes) (world : σ) (s : Injecting σ) : Prop where
  keeps : s.injector.backend.cache.Keeps images
  pure : ∀ v ∈ s.injector.visitors.visitors, v.Pure
  recalls : s.injector.composer.Recalls (s.injector.composer.verdict world)
    (Known images s.injector.backend.cache.options) s.injector.plans

/-- Sites of one key get one answer. -/
theorem verdict_keyed {c : Composer σ} (pure : ∀ v ∈ c.visitors.visitors, v.Pure)
    (apart : images.InjOn Digest.sha1) {options : DecodeOptions} (world : σ) (site site' : Site)
    (known : Known images options site) (known' : Known images options site')
    (same : site.key = site'.key) : c.verdict world site = c.verdict world site' := by
  obtain ⟨image, involved, decoding, s, decoded, mem⟩ := known
  obtain ⟨image', involved', decoding', s', decoded', mem'⟩ := known'
  rw [ClassSite.eq_under_of_key decoded decoded' (apart involved involved') mem mem' same]
  exact (Composer.verdict_alike (.refl c) pure ⟨{}, world⟩ world).symm

/-- Where the cache is clear, a class that is known is composed to what is asked for anew. -/
theorem composing_gives {c : Composer σ} (pure : ∀ v ∈ c.visitors.visitors, v.Pure)
    (apart : images.InjOn Digest.sha1) (involved : image ∈ images) {options : DecodeOptions}
    {decoding : Nat} {site : ClassSite}
    (decoded : ClassSite.ofBytes options decoding image = .ok site) (world : σ) :
    Gives (c.Recalling (c.verdict world) (Known images options)) (c.composeAll site)
      (c.surveyAll (c.verdict world) site) :=
  Composer.composeAll_gives (fun _ _ => Composer.visitAll_gives pure world)
    (verdict_keyed pure apart world) fun _ mem => ⟨image, involved, decoding, site, decoded, mem⟩

/-- What holds while an image is woven that was decoded. -/
structure Recalling (images : Set Bytes) (world : σ) (s s' : Injecting σ) : Prop where
  config : s'.injector.config = s.injector.config
  backend : s'.injector.backend = s.injector.backend
  visitors : s'.injector.visitors = s.injector.visitors
  recalls : s.injector.composer.Recalls (s.injector.composer.verdict world)
    (Known images s.injector.backend.cache.options) s'.injector.plans

theorem Recalling.composer {world : σ} {s' : Injecting σ} (h : Recalling images world s s') :
    s'.injector.composer = s.injector.composer := by
  rw [Injector.composer, h.config, h.backend, h.visitors, Injector.composer]

theorem weave_recalling (pure : ∀ v ∈ s.injector.visitors.visitors, v.Pure)
    (apart : images.InjOn Digest.sha1) (involved : image ∈ images) {decoding : Nat}
    {site : ClassSite}
    (decoded : ClassSite.ofBytes s.injector.backend.cache.options decoding image = .ok site)
    (world : σ) : Maintains (Recalling images world s) (weave site image) fun _ => True := by
  refine weave_keeps (fun s₁ during => ?_) (fun options composition => ?_) image
  · rw [during.composer]
    refine .zoom (composing_gives pure apart involved decoded world).maintains
      (fun s₂ before => before.recalls) fun s₂ c before after => ?_
    exact ⟨before.config, before.backend, before.visitors, after⟩
  · refine .zoom (J := fun _ => True) ⟨fun _ _ _ _ _ => ⟨trivial, trivial⟩, fun _ _ _ _ _ => trivial⟩
      (fun _ _ => trivial) fun s₂ ledger before _ => ?_
    exact ⟨before.config, before.backend, before.visitors, before.recalls⟩

theorem attempt_transform (image : Bytes) (s : Injecting σ) : (transform image).attempt s =
    match (decode image).attempt s with
    | (.ok site, t) => Prod.map id (release site) ((weave site image).attempt t)
    | (.error e, t) => (.error e, t) := by
  cases decoded : decode image s with
  | error e t =>
    rw [Edit.attempt_of_error decoded]
    refine Edit.attempt_of_error ?_
    rw [transform, decoded]
  | ok site t =>
    rw [Edit.attempt_of_ok decoded]
    unfold Edit.attempt transform
    rw [decoded]
    dsimp only
    cases weave site image t <;> rfl

/-- What becomes of an image is up to the backend: every injector with this one refuses it for the
same cause, or is given the same decoding of it. -/
theorem decode_eq {b : Backend} (keeps : b.cache.Keeps images) (apart : images.InjOn Digest.sha1)
    (involved : image ∈ images) : ∃ b', b'.Serves images b.cache.options b.supported ∧
      ((∃ e, ∀ s : Injecting σ, s.injector.backend = b →
        decode image s = .error e (withBackend b' s)) ∨
      ∃ site decoding, ClassSite.ofBytes b.cache.options decoding image = .ok site ∧
        ∀ s : Injecting σ, s.injector.backend = b →
          decode image s = .ok site (withBackend b' s)) := by
  have decodes := Backend.decode_maintains apart involved b.cache.options b.supported
  cases read : Backend.decode image b with
  | error e b' =>
    refine ⟨b', decodes.error _ e b' ⟨keeps, rfl, rfl⟩ read, .inl ⟨e, ?_⟩⟩
    rintro s rfl
    rw [decode, Edit.zoom, read]
    rfl
  | ok site b' =>
    obtain ⟨serves, decoding, decoded⟩ := decodes.ok _ site b' ⟨keeps, rfl, rfl⟩ read
    refine ⟨b', serves, .inr ⟨site, decoding, decoded, ?_⟩⟩
    rintro s rfl
    rw [decode, Edit.zoom, read]
    rfl

theorem Clear.withBackend {world : σ} (h : s.Clear images world) {b : Backend}
    (serves : b.Serves images s.injector.backend.cache.options s.injector.backend.supported) :
    (Injecting.withBackend b s).Clear images world := by
  have composer : (Injecting.withBackend b s).injector.composer = s.injector.composer :=
    congrArg (Composer.mk _ · _) serves.supported
  refine ⟨serves.keeps, h.pure, ?_⟩
  rw [composer]
  exact serves.options ▸ h.recalls

/-- Behind an image the caches are clear still. -/
theorem Clear.transform {world : σ} (h : s.Clear images world) (apart : images.InjOn Digest.sha1)
    (involved : image ∈ images) :
    ((Injecting.transform image).attempt s).2.Clear images world := by
  obtain ⟨b, serves, ⟨e, read⟩ | ⟨site, decoding, decoded, read⟩⟩ :=
    decode_eq (σ := σ) h.keeps apart involved
  · rw [attempt_transform, Edit.attempt_of_error (read s rfl)]
    exact h.withBackend serves
  rw [attempt_transform, Edit.attempt_of_ok (read s rfl)]
  have clear := h.withBackend serves
  rw [← serves.options] at decoded
  have during := (weave_recalling clear.pure apart involved decoded world).attempt _
    ⟨rfl, rfl, rfl, clear.recalls⟩
  refine Clear.withBackend (s := ((weave site image).attempt (Injecting.withBackend b s)).2)
    ⟨?_, ?_, ?_⟩ (Backend.Serves.release ⟨?_, rfl, rfl⟩ site)
  · rw [during.backend]
    exact clear.keeps
  · rw [during.visitors]
    exact clear.pure
  · rw [during.composer, during.backend]
    exact during.recalls
  · rw [during.backend]
    exact clear.keeps

theorem Works.clear (h : s.Works images) (apart : images.InjOn Digest.sha1) (world : σ) :
    s.Clear images world := by
  induction h with
  | made name config ledger number world' keeps =>
    exact ⟨keeps, (fun v mem => nomatch mem), Composer.recalls_empty⟩
  | visited pure _ ih =>
    refine ⟨ih.keeps, fun v mem => ?_, Composer.recalls_empty⟩
    rcases List.mem_append.1 mem with mem | mem
    · exact ih.pure v mem
    · exact List.mem_singleton.1 mem ▸ pure
  | transformed involved _ ih => exact ih.transform apart involved
  | elapsed ledger world' serves _ ih =>
    obtain ⟨keeps, pure, recalls⟩ := ih.withBackend serves
    exact ⟨keeps, pure, recalls⟩

end Injecting

/-! ## New injectors -/

namespace Injector

/-- A new injector of the same name, configuration and backend, which gets the visitors one by one. -/
def anew (number : Nat) (i : Injector σ) : Injector σ :=
  i.visitors.visitors.foldl (fun new v => new.addVisitor v)
    { name := i.name, config := i.config, backend := i.backend, ledger := i.ledger,
      visitors := { number } }

/-- The injector without what it has composed, and without the identity of its set of visitors. -/
def bare (i : Injector σ) : Injector σ := { i with visitors := ⟨0, i.visitors.visitors⟩, plans := {} }

/-- The injectors have one name, configuration and backend, and the same visitors. -/
structure Alike (i j : Injector σ) : Prop where
  name : i.name = j.name
  config : i.config = j.config
  backend : i.backend = j.backend
  visitors : i.visitors.visitors = j.visitors.visitors

theorem bare_inj {i j : Injector σ} : i.bare = j.bare ↔ i.Alike j ∧ i.ledger = j.ledger := by
  constructor
  · intro same
    simp only [bare, mk.injEq, VisitorSet.mk.injEq, true_and, and_true] at same
    obtain ⟨name, config, backend, ledger, visitors⟩ := same
    exact ⟨⟨name, config, backend, visitors⟩, ledger⟩
  · rintro ⟨⟨name, config, backend, visitors⟩, ledger⟩
    rw [bare, name, config, backend, visitors, ledger, bare]

namespace Alike

variable {i j : Injector σ}

theorem twins (h : i.Alike j) : i.composer.Twins j.composer where
  visitors := h.visitors.symm
  supported := (congrArg Backend.supported h.backend).symm
  skipSynthetic := (congrArg Config.skipSynthetic h.config).symm

theorem hasWoven (h : i.Alike j) (s : ClassSite) : i.hasWoven s = j.hasWoven s := by
  rw [Injector.hasWoven, h.name, h.config, Injector.hasWoven]

theorem options (h : i.Alike j) : i.options = j.options := by
  rw [Injector.options, h.name, h.config, Injector.options]

theorem verify (h : i.Alike j) (images : Weave.WovenImages) : i.verify images = j.verify images := by
  rw [Injector.verify, h.config, Injector.verify]

end Alike

theorem foldl_addVisitor (visitors : List (Visitor σ)) (i : Injector σ) (cleared : i.plans = {}) :
    visitors.foldl (fun new v => new.addVisitor v) i =
      { i with visitors := ⟨i.visitors.number, i.visitors.visitors ++ visitors⟩ } := by
  induction visitors generalizing i with
  | nil =>
    rw [List.append_nil]
    rfl
  | cons v rest ih =>
    rw [List.foldl_cons, ih (i.addVisitor v) rfl]
    simp only [addVisitor, VisitorSet.push, List.append_assoc, List.singleton_append, cleared]

theorem anew_eq (number : Nat) (i : Injector σ) :
    i.anew number = { i with visitors := ⟨number, i.visitors.visitors⟩, plans := {} } :=
  foldl_addVisitor _ _ rfl

end Injector

namespace Injecting

variable {s t : Injecting σ}

/-- What the injector weaves into an image, unless the image carries its mark. -/
def asked (image : Bytes) : Edit (Injecting σ) (Option (Composition σ)) := do
  let site ← decode image
  let i := (← get).injector
  if i.hasWoven site then return none
  return some (← composing (i.composer.composeAll site))

/-- Injectors that are alike compose a class alike if their caches are clear. -/
theorem composing_agree {world : σ} (clear : s.Clear images world) (clear' : t.Clear images world)
    (alike : s.injector.Alike t.injector) (apart : images.InjOn Digest.sha1)
    (involved : image ∈ images) {decoding : Nat} {site : ClassSite}
    (decoded : ClassSite.ofBytes s.injector.backend.cache.options decoding image = .ok site) :
    ((composing (s.injector.composer.composeAll site)).attempt s).1 =
      ((composing (t.injector.composer.composeAll site)).attempt t).1 := by
  have here := (composing_gives clear.pure apart involved decoded world
    ⟨s.injector.plans, s.world⟩ clear.recalls).1
  rw [alike.backend] at decoded
  have there := (composing_gives clear'.pure apart involved decoded world
    ⟨t.injector.plans, t.world⟩ clear'.recalls).1
  rw [composing, composing, Edit.attempt_zoom, Edit.attempt_zoom]
  exact here.trans ((Composer.surveyAll_twins alike.twins clear.pure world site).symm.trans
    there.symm)

/-- Injectors that are alike weave a class alike if they compose it alike. -/
theorem weave_agree {site : ClassSite} (same : s.injector.bare = t.injector.bare)
    (composes : ((composing (s.injector.composer.composeAll site)).attempt s).1 =
      ((composing (t.injector.composer.composeAll site)).attempt t).1) (image : Bytes) :
    Agree (·.injector.bare) (weave site image) (weave site image) s t := by
  obtain ⟨alike, -⟩ := Injector.bare_inj.1 same
  refine .get ?_
  dsimp only
  rw [alike.hasWoven]
  split
  · exact .pure _ same
  have first : Agree (·.injector.bare) (composing (s.injector.composer.composeAll site))
      (composing (t.injector.composer.composeAll site)) s t := Prod.ext composes (by
    rw [composing, composing, Edit.attempt_zoom, Edit.attempt_zoom]
    exact same)
  refine first.bind fun composition s₁ t₁ _ _ same₁ => ?_
  split
  · exact .pure _ same₁
  rw [alike.options]
  have second : Agree (·.injector.bare)
      (planning (Weave.Plan.ofComposition t.injector.options composition))
      (planning (Weave.Plan.ofComposition t.injector.options composition)) s₁ t₁ := by
    obtain ⟨alike₁, ledger⟩ := Injector.bare_inj.1 same₁
    rw [Agree, planning, Edit.attempt_zoom, Edit.attempt_zoom, ledger]
    exact congrArg (Prod.mk _) (Injector.bare_inj.2
      ⟨⟨alike₁.name, alike₁.config, alike₁.backend, alike₁.visitors⟩, rfl⟩)
  refine second.bind fun plan s₂ t₂ _ _ same₂ => ?_
  have third : Agree (·.injector.bare) (liftM (plan.apply site)) (liftM (plan.apply site)) s₂ t₂ :=
    .lift _ same₂
  refine third.bind fun images s₃ t₃ _ _ same₃ => ?_
  rw [alike.verify]
  have fourth : Agree (·.injector.bare) (liftM (t.injector.verify images))
      (liftM (t.injector.verify images)) s₃ t₃ := .lift _ same₃
  exact fourth.bind fun _ s₄ t₄ _ _ same₄ => .pure _ same₄

theorem alike_withBackend (alike : s.injector.Alike t.injector) (b : Backend) :
    (withBackend b s).injector.Alike (withBackend b t).injector :=
  ⟨alike.name, alike.config, rfl, alike.visitors⟩

/-- Injectors that are alike ask for the same injections in an image if their caches are clear. -/
theorem asked_agree {world : σ} (clear : s.Clear images world) (clear' : t.Clear images world)
    (alike : s.injector.Alike t.injector) (apart : images.InjOn Digest.sha1)
    (involved : image ∈ images) :
    ((asked image).attempt s).1 = ((asked image).attempt t).1 := by
  obtain ⟨b, serves, ⟨e, read⟩ | ⟨site, decoding, decoded, read⟩⟩ :=
    decode_eq (σ := σ) clear.keeps apart involved
  · unfold asked
    rw [Edit.attempt_of_error (step_bind_error (read s rfl)),
      Edit.attempt_of_error (step_bind_error (read t alike.backend.symm))]
  have twin := alike_withBackend alike b
  have serves' := serves
  rw [alike.backend] at serves'
  have composes := composing_agree (clear.withBackend serves) (clear'.withBackend serves') twin apart
    involved (serves.options ▸ decoded)
  suffices agree : Agree (fun _ => ()) (asked image) (asked image) s t from agree.eq.1
  have first : Agree (fun _ => ()) (decode image) (decode image) s t := by
    rw [Agree, Edit.attempt_of_ok (read s rfl), Edit.attempt_of_ok (read t alike.backend.symm)]
    rfl
  refine first.bind fun site' s₁ t₁ done done' _ => .get ?_
  cases (read s rfl).symm.trans done
  cases (read t alike.backend.symm).symm.trans done'
  dsimp only
  rw [twin.hasWoven]
  split
  · exact .pure none rfl
  have second : Agree (fun _ => ())
      (composing ((withBackend b s).injector.composer.composeAll site))
      (composing ((withBackend b t).injector.composer.composeAll site))
      (withBackend b s) (withBackend b t) := Prod.ext composes rfl
  exact second.bind fun composition _ _ _ _ _ => .pure _ rfl

/-- Injectors that are alike, and have registered the same callbacks, transform an image alike if
their caches are clear. -/
theorem transform_agree {world : σ} (clear : s.Clear images world) (clear' : t.Clear images world)
    (same : s.injector.bare = t.injector.bare) (apart : images.InjOn Digest.sha1)
    (involved : image ∈ images) :
    Agree (·.injector.bare) (transform image) (transform image) s t := by
  obtain ⟨alike, ledger⟩ := Injector.bare_inj.1 same
  have behind (b : Backend) : (withBackend b s).injector.bare = (withBackend b t).injector.bare :=
    Injector.bare_inj.2 ⟨alike_withBackend alike b, ledger⟩
  obtain ⟨b, serves, ⟨e, read⟩ | ⟨site, decoding, decoded, read⟩⟩ :=
    decode_eq (σ := σ) clear.keeps apart involved
  · rw [Agree, attempt_transform, Edit.attempt_of_error (read s rfl), attempt_transform,
      Edit.attempt_of_error (read t alike.backend.symm)]
    exact congrArg (Prod.mk _) (behind b)
  have serves' := serves
  rw [alike.backend] at serves'
  have composes := composing_agree (clear.withBackend serves) (clear'.withBackend serves')
    (alike_withBackend alike b) apart involved (serves.options ▸ decoded)
  obtain ⟨answers, after⟩ := (weave_agree (behind b) composes image).eq
  obtain ⟨alike', ledger'⟩ := Injector.bare_inj.1 after
  rw [Agree, attempt_transform, Edit.attempt_of_ok (read s rfl), attempt_transform,
    Edit.attempt_of_ok (read t alike.backend.symm)]
  refine Prod.ext answers (Injector.bare_inj.2 ⟨⟨alike'.name, alike'.config, ?_, alike'.visitors⟩,
    ledger'⟩)
  exact congrArg (Backend.release site) alike'.backend

/-- Whatever became of an injector, it asks for the injections in an image that a new injector of
its name, configuration, backend and visitors asks for, or fails as that one does; and with the same
callbacks registered before, both make the same of the image and are left with the same callbacks.
All that is cached was composed by the visitors that the injector has now. -/
theorem transform_anew (works : s.Works images) (apart : images.InjOn Digest.sha1)
    (involved : image ∈ images) (number : Nat) (world : σ) :
    (∀ ledger, ((asked image).attempt s).1 =
      ((asked image).attempt ⟨{ s.injector.anew number with ledger }, world⟩).1) ∧
    ((transform image).attempt s).1 =
      ((transform image).attempt ⟨s.injector.anew number, world⟩).1 ∧
    ((transform image).attempt s).2.injector.bare =
      ((transform image).attempt ⟨s.injector.anew number, world⟩).2.injector.bare ∧
    ∀ (key : SiteKey × VisitorSetId) composed, s.injector.plans.entries[key]? = some composed →
      key.2 = s.injector.visitors.id := by
  have clear := works.clear apart world
  have anew (ledger : Weave.Ledger σ) :
      Clear images world ⟨{ s.injector.anew number with ledger }, world⟩ := by
    rw [Injector.anew_eq]
    exact ⟨clear.keeps, clear.pure, Composer.recalls_empty⟩
  have alike (ledger : Weave.Ledger σ) :
      s.injector.Alike { s.injector.anew number with ledger } := by
    rw [Injector.anew_eq]
    exact ⟨rfl, rfl, rfl, rfl⟩
  have same : s.injector.bare = (s.injector.anew number).bare := by
    rw [Injector.anew_eq]
    rfl
  obtain ⟨answers, after⟩ := (transform_agree (t := ⟨s.injector.anew number, world⟩) clear
    (anew _) same apart involved).eq
  exact ⟨fun ledger => asked_agree clear (anew ledger) (alike ledger) apart involved, answers, after,
    clear.recalls.current⟩

theorem works_counting : countingInjector.Works {Weave.plainImage} :=
  .visited (fun _ _ _ _ => rfl) (.made _ _ ⟨⟨0, 0, ∅⟩, 1⟩ 0 () (SiteCache.keeps_empty _))

/-- An injector that is given an image again, with a visitor added in between. -/
theorem transform_anew_counting :
    let s := update (·.addVisitor Weave.counting)
      ((transform Weave.plainImage).attempt countingInjector).2
    s.Works {Weave.plainImage} ∧ Set.InjOn Digest.sha1 {Weave.plainImage} ∧
      Weave.plainImage ∈ ({Weave.plainImage} : Set Bytes) ∧
      (∀ ledger, ((asked Weave.plainImage).attempt s).1 =
        ((asked Weave.plainImage).attempt ⟨{ s.injector.anew 1 with ledger }, ()⟩).1) ∧
      ((transform Weave.plainImage).attempt s).1 =
        ((transform Weave.plainImage).attempt ⟨s.injector.anew 1, ()⟩).1 ∧
      ((transform Weave.plainImage).attempt s).2.injector.bare =
        ((transform Weave.plainImage).attempt ⟨s.injector.anew 1, ()⟩).2.injector.bare ∧
      ∀ (key : SiteKey × VisitorSetId) composed, s.injector.plans.entries[key]? = some composed →
        key.2 = s.injector.visitors.id := by
  intro s
  have works : s.Works {Weave.plainImage} :=
    .visited (fun _ _ _ _ => rfl) (.transformed (Set.mem_singleton _) works_counting)
  exact ⟨works, Set.injOn_singleton _ _, Set.mem_singleton _,
    transform_anew works (Set.injOn_singleton _ _) (Set.mem_singleton _) 1 ()⟩

end Injecting

end Weft
