import Mathlib.Data.List.Induction
import Mathlib.Data.List.Perm.Basic
import Weft.Call.Chain
import Weft.Proofs.Visitor.Composition

/-!
# The order of registration

Where visitors answer by the site alone, what is composed for it is what they ask for, by rank and
else in the order of the visitors. The chain of a method keeps the callbacks of each kind apart. So
its calls do not depend on the order of the visitors, as long as those that answer with one kind
keep theirs.
-/

namespace Weft

variable {σ : Type}

/-! ## Ranks -/

namespace Injection

/-- Injections in the order of application: by rank, and as they were asked for where ranks are
equal. -/
structure Ranked (asked composed : List (Injection σ)) : Prop where
  sorted : composed.Pairwise (·.rank ≤ ·.rank)
  perm : composed.Perm asked
  stable : ∀ r, composed.filter (·.rank == r) = asked.filter (·.rank == r)

theorem ranked_sortByRank (asked : List (Injection σ)) : Ranked asked (sortByRank asked) := by
  have trans : ∀ a b c : Injection σ, decide (a.rank ≤ b.rank) = true →
      decide (b.rank ≤ c.rank) = true → decide (a.rank ≤ c.rank) = true := by
    simp only [decide_eq_true_eq]
    intro a b c
    exact Nat.le_trans
  have total : ∀ a b : Injection σ,
      (decide (a.rank ≤ b.rank) || decide (b.rank ≤ a.rank)) = true := by
    simp only [Bool.or_eq_true, decide_eq_true_eq]
    intro a b
    exact Nat.le_total a.rank b.rank
  have perm : (sortByRank asked).Perm asked := List.mergeSort_perm _ _
  refine ⟨(List.pairwise_mergeSort trans total asked).imp of_decide_eq_true, perm, fun r => ?_⟩
  -- those of one rank are sorted as they stand, so that sorting keeps them as a sublist
  have level : (asked.filter (·.rank == r)).Pairwise fun a b => decide (a.rank ≤ b.rank) = true := by
    refine List.pairwise_of_forall_mem_list fun a ha b hb => ?_
    have ha := beq_iff_eq.1 (List.mem_filter.1 ha).2
    have hb := beq_iff_eq.1 (List.mem_filter.1 hb).2
    rw [ha, hb]
    exact decide_eq_true (Nat.le_refl r)
  have kept := (List.sublist_mergeSort trans total level List.filter_sublist).filter (·.rank == r)
  rw [List.filter_filter, List.filter_congr fun i _ => Bool.and_self _] at kept
  exact (kept.eq_of_length (perm.filter _).length_eq.symm).symm

theorem Ranked.ofKind {asked composed : List (Injection σ)} (h : Ranked asked composed) (k : Kind) :
    composed.filter (·.kind == k) = asked.filter (·.kind == k) := by
  have within (l : List (Injection σ)) :
      l.filter (·.kind == k) = (l.filter (·.rank == k.rank)).filter (·.kind == k) := by
    rw [List.filter_filter]
    refine List.filter_congr fun i _ => ?_
    cases same : i.kind == k with
    | false => rfl
    | true => exact (beq_iff_eq.2 (congrArg Kind.rank (beq_iff_eq.1 same))).symm
  rw [within composed, h.stable, ← within asked]

end Injection

/-! ## Chains -/

namespace Chain

/-- The chain with the callbacks of injections, those of each kind in their order. -/
def gather (site : MethodSite) (l : List (Injection σ)) : Chain σ where
  site := site
  ignores := l.filterMap fun | .ignoreMethod f => some f | _ => none
  preHooks := l.filterMap fun | .preHook f => some f | _ => none
  replacements := l.filterMap fun | .replaceMethod f => some f | _ => none
  postHooks := l.filterMap fun | .postHook f => some f | _ => none
  recoveries := l.filterMap fun | .errorRecovery f => some f | _ => none

theorem ofInjections_eq {site : MethodSite} {l : List (Injection σ)}
    (targets : ∀ i ∈ l, i.target = .ofMethod) : ofInjections site l = .ok (gather site l) := by
  induction l using List.reverseRecOn with
  | nil => rfl
  | append_singleton l i ih =>
    have first := ih fun j mem => targets j (List.mem_append_left _ mem)
    have target := targets i (List.mem_append_right _ (List.mem_singleton_self i))
    rw [ofInjections, List.foldlM_append]
    refine except_bind_eq_ok.2 ⟨_, first, ?_⟩
    simp only [List.foldlM_cons, List.foldlM_nil, bind_pure]
    simp only [gather, List.filterMap_append]
    cases i with
    | addField | addMethod => cases target
    | nothing t =>
      cases target
      simp [add]
    | _ => simp [add]

/-- Only the order among injections of one kind makes a difference to a chain. -/
theorem gather_congr {l l' : List (Injection σ)}
    (same : ∀ k, l.filter (·.kind == k) = l'.filter (·.kind == k)) (site : MethodSite) :
    gather site l = gather site l' := by
  have part {α : Type} {f : Injection σ → Option α} (k : Kind)
      (others : ∀ i, (f i).isSome = true → i.kind = k) : l.filterMap f = l'.filterMap f := by
    have within (l : List (Injection σ)) :
        l.filterMap f = (l.filter (·.kind == k)).filterMap f := by
      rw [List.filterMap_filter]
      refine List.filterMap_congr fun i _ => ?_
      split
      · rfl
      · rename_i other
        rw [beq_iff_eq] at other
        exact Option.not_isSome_iff_eq_none.1 fun some => other (others i some)
    rw [within l, within l', same k]
  unfold gather
  rw [part .ignoreMethod, part .preHook, part .replaceMethod, part .postHook, part .errorRecovery]
  all_goals
    intro i
    cases i <;> simp [Injection.kind]

end Chain

/-! ## Composing -/

/-- The visitors answer the site with these, whatever the world. -/
def Visitor.AnswerBy (site : Site) (answer : Visitor σ → Option (Injection σ))
    (visitors : List (Visitor σ)) : Prop :=
  ∀ v ∈ visitors, ∀ world, (v.visit site world).1 = answer v

namespace Composer

variable {c c' : Composer σ} {site : Site} {answer : Visitor σ → Option (Injection σ)}
  {visitors : List (Visitor σ)} {s s' : Composing σ} {l : List (Injection σ)}

/-- The composer does not refuse the answer. -/
structure Accepts (c : Composer σ) (site : Site) (i : Injection σ) : Prop where
  target : i.target = site.target
  supported : c.supported.supports i.kind = true

/-- What visitors ask for by their answers. -/
def asked (answer : Visitor σ → Option (Injection σ)) (visitors : List (Visitor σ)) :
    List (Injection σ) :=
  (visitors.filterMap answer).filter (!·.isNothing)

theorem check_eq_ok_iff {visitor : String} {i : Injection σ} {i? : Option (Injection σ)} :
    c.check visitor site i = .ok i? ↔
      c.Accepts site i ∧ i? = if i.isNothing then none else some i := by
  have harmless : i.isNothing = true → c.supported.supports i.kind = true := by
    cases i <;> simp [Injection.isNothing, Injection.kind, Kinds.supports, Kind.flag]
  constructor
  · intro h
    unfold check at h
    split at h
    · cases h
    rename_i target
    rw [not_not] at target
    split at h
    · rename_i nothing
      cases h
      exact ⟨⟨target, harmless nothing⟩, by rw [if_pos nothing]⟩
    rename_i something
    split at h
    · rename_i supported
      cases h
      exact ⟨⟨target, supported⟩, by rw [if_neg something]⟩
    · cases h
  · rintro ⟨⟨target, supported⟩, rfl⟩
    unfold check
    rw [if_neg (not_not_intro target), if_pos supported]
    split <;> rfl

theorem asked_cons (v : Visitor σ) (rest : List (Visitor σ)) : asked answer (v :: rest) =
    ((answer v).bind fun i => if i.isNothing then none else some i).toList ++ asked answer rest := by
  cases asks : answer v with
  | none => simp [asked, asks]
  | some i => cases nothing : i.isNothing <;> simp [asked, asks, nothing]

/-- Visitors are answered for exactly if each of their answers is accepted. -/
theorem answers_eq_ok_iff (pure : Visitor.AnswerBy site answer visitors) :
    (∃ s', c.answers site visitors s = .ok l s') ↔
      (∀ v ∈ visitors, ∀ i, answer v = some i → c.Accepts site i) ∧ l = asked answer visitors := by
  induction visitors generalizing s l with
  | nil =>
    show (∃ s', (Pure.pure [] : Compose σ _) s = .ok l s') ↔ _
    simp only [step_pure_eq_ok]
    simp [asked, eq_comm]
  | cons v rest ih =>
    obtain ⟨here, pure⟩ := List.forall_mem_cons.1 pure
    have visited : Compose.visiting (v.visit site) s =
        .ok (answer v) { s with world := (v.visit site s.world).2 } := by
      rw [← here s.world]
      rfl
    rw [answers, step_bind_ok visited, List.forall_mem_cons, asked_cons]
    cases answer v with
    | none => simpa using ih pure
    | some i =>
      simp only [step_bind_eq_ok, edit_lift_eq_ok, step_pure_eq_ok, check_eq_ok_iff,
        Option.some.injEq, forall_eq']
      constructor
      · rintro ⟨s', i?, s₁, ⟨⟨accepts, rfl⟩, rfl⟩, others, s₂, done, rfl, rfl⟩
        obtain ⟨each, rfl⟩ := (ih pure).1 ⟨s₂, done⟩
        exact ⟨⟨accepts, each⟩, rfl⟩
      · rintro ⟨⟨accepts, each⟩, rfl⟩
        obtain ⟨s₂, done⟩ := (ih pure).2 ⟨each, rfl⟩
        exact ⟨s₂, _, _, ⟨⟨accepts, rfl⟩, rfl⟩, _, s₂, done, rfl, rfl⟩

/-- A site is visited with success exactly if each answer is accepted. -/
theorem visitAll_eq_ok_iff
    (pure : Visitor.AnswerBy site answer (c.visitors.forTarget site.target)) :
    (∃ s', c.visitAll site s = .ok l s') ↔
      (∀ v ∈ c.visitors.forTarget site.target, ∀ i, answer v = some i → c.Accepts site i) ∧
        l = Injection.sortByRank (asked answer (c.visitors.forTarget site.target)) := by
  unfold visitAll
  simp only [step_bind_eq_ok, step_pure_eq_ok]
  constructor
  · rintro ⟨s', given, s₁, done, rfl, rfl⟩
    obtain ⟨each, rfl⟩ := (answers_eq_ok_iff pure).1 ⟨s₁, done⟩
    exact ⟨each, rfl⟩
  · rintro ⟨each, rfl⟩
    obtain ⟨s₁, done⟩ := (answers_eq_ok_iff (s := s) pure).2 ⟨each, rfl⟩
    exact ⟨s₁, _, s₁, done, rfl, rfl⟩

/-- What is cached for the site was composed for it by the same visitors. -/
def Composed (c : Composer σ) (site : Site) (s : Composing σ) : Prop :=
  ∀ l, s.cache.get? site.key c.visitors.id = some l → ∃ t t', c.visitAll site t = .ok l t'

theorem composed_empty (world : σ) : c.Composed site ⟨{}, world⟩ := by
  intro l found
  cases Std.HashMap.getElem?_empty.symm.trans found

theorem cache_of_answers (done : c.answers site visitors s = .ok l s') : s'.cache = s.cache := by
  induction visitors generalizing s l with
  | nil =>
    obtain ⟨-, rfl⟩ := step_pure_eq_ok.1 done
    rfl
  | cons v rest ih =>
    obtain ⟨i?, s₁, visited, done⟩ := step_bind_eq_ok.1 done
    cases visited
    cases i? : (v.visit site s.world).1 with
    | none =>
      simp only [i?] at done
      have same := ih done
      exact same
    | some i =>
      simp only [i?] at done
      obtain ⟨kept, s₂, checked, done⟩ := step_bind_eq_ok.1 done
      obtain ⟨others, s₃, answered, last⟩ := step_bind_eq_ok.1 done
      obtain ⟨-, rfl⟩ := edit_lift_eq_ok.1 checked
      obtain ⟨-, rfl⟩ := step_pure_eq_ok.1 last
      have same := ih answered
      exact same

theorem cache_of_visitAll (done : c.visitAll site s = .ok l s') : s'.cache = s.cache := by
  obtain ⟨given, s₁, answered, done⟩ := step_bind_eq_ok.1 done
  obtain ⟨-, rfl⟩ := step_pure_eq_ok.1 done
  exact cache_of_answers answered

/-- What was not cached before is cached as it is. -/
theorem commit_eq_ok (fresh : s.cache.get? site.key c.visitors.id = none) (l : List (Injection σ)) :
    ∃ s', c.commit site l s = .ok l s' ∧ s'.cache.get? site.key c.visitors.id = some l := by
  have kept : (PlanCache.store site.key c.visitors.id l s.cache).1 = l := by
    show s.cache.entries.getD (site.key, c.visitors.id) l = l
    rw [Std.HashMap.getD_eq_getD_getElem?]
    exact congrArg (·.getD l) fresh
  exact ⟨_, congrArg (EStateM.Result.ok · _) kept,
    (PlanCache.get?_store s.cache site.key c.visitors.id l).trans (congrArg some kept)⟩

/-- A site is composed with success exactly if each answer is accepted, and then to what visitors
ask for, by rank. -/
theorem compose_eq_ok_iff (composed : c.Composed site s)
    (pure : Visitor.AnswerBy site answer (c.visitors.forTarget site.target)) :
    (∃ s', c.compose site s = .ok l s') ↔
      (∀ v ∈ c.visitors.forTarget site.target, ∀ i, answer v = some i → c.Accepts site i) ∧
        l = Injection.sortByRank (asked answer (c.visitors.forTarget site.target)) := by
  unfold compose
  simp only [step_get_bind]
  cases found : s.cache.get? site.key c.visitors.id with
  | some kept =>
    obtain ⟨t, t', visited⟩ := composed kept found
    obtain ⟨each, rfl⟩ := (visitAll_eq_ok_iff pure).1 ⟨t', visited⟩
    simp only [step_pure_eq_ok]
    exact ⟨fun ⟨_, same, _⟩ => ⟨each, same.symm⟩, fun ⟨_, same⟩ => ⟨s, same.symm, rfl⟩⟩
  | none =>
    rw [← visitAll_eq_ok_iff (s := s) pure]
    constructor
    · rintro ⟨s', done⟩
      obtain ⟨given, s₁, visited, committed⟩ := step_bind_eq_ok.1 done
      obtain ⟨s₂, committed', -⟩ := commit_eq_ok (cache_of_visitAll visited ▸ found) given
      cases committed'.symm.trans committed
      exact ⟨s₁, visited⟩
    · rintro ⟨s₁, visited⟩
      obtain ⟨s₂, committed, -⟩ := commit_eq_ok (cache_of_visitAll visited ▸ found) l
      exact ⟨s₂, step_bind_eq_ok.2 ⟨l, s₁, visited, committed⟩⟩

/-- What is cached for a site when it has been composed was composed by the same visitors. -/
theorem Composed.compose (composed : c.Composed site s) (done : c.compose site s = .ok l s') :
    c.Composed site s' := by
  intro kept found
  unfold Composer.compose at done
  rw [step_get_bind] at done
  cases before : s.cache.get? site.key c.visitors.id with
  | some old =>
    rw [before] at done
    obtain ⟨-, rfl⟩ := step_pure_eq_ok.1 done
    exact composed kept found
  | none =>
    rw [before] at done
    obtain ⟨given, s₁, visited, committed⟩ := step_bind_eq_ok.1 done
    obtain ⟨s₂, committed', cached⟩ := commit_eq_ok (cache_of_visitAll visited ▸ before) given
    cases committed'.symm.trans committed
    cases cached.symm.trans found
    exact ⟨s, s₁, visited⟩

/-! ## Orders of visitors -/

/-- The visitors that are shown methods and answer with that kind. -/
def asking (c : Composer σ) (answer : Visitor σ → Option (Injection σ)) (k : Kind) :
    List (Visitor σ) :=
  (c.visitors.forTarget .ofMethod).filter fun v => (answer v).any (·.kind == k)

theorem asked_ofKind (k : Kind) : (asked answer visitors).filter (·.kind == k) =
    (asked answer (visitors.filter fun v => (answer v).any (·.kind == k))).filter (·.kind == k) := by
  induction visitors with
  | nil => rfl
  | cons v rest ih =>
    rw [asked_cons, List.filter_append, ih, List.filter_cons]
    cases asks : answer v with
    | none => simp
    | some i =>
      cases same : i.kind == k with
      | true => simp [same, asked_cons, asks]
      | false => cases nothing : i.isNothing <;> simp [same, nothing]

/-- Composing a method succeeds in either order of the visitors or in none. What is composed is
ranked, and makes the same chain. -/
theorem compose_permuted {m : MethodSite}
    (pure : Visitor.AnswerBy (.ofMethod m) answer c.visitors.visitors)
    (permuted : c.visitors.visitors.Perm c'.visitors.visitors)
    (kept : ∀ k, c.asking answer k = c'.asking answer k) (supported : c.supported = c'.supported)
    (composed : c.Composed (.ofMethod m) s) (composed' : c'.Composed (.ofMethod m) s') :
    ((∃ l t, c.compose (.ofMethod m) s = .ok l t) ↔ ∃ l t, c'.compose (.ofMethod m) s' = .ok l t) ∧
      ∀ l t l' t', c.compose (.ofMethod m) s = .ok l t → c'.compose (.ofMethod m) s' = .ok l' t' →
        Injection.Ranked (asked answer (c.visitors.forTarget .ofMethod)) l ∧
        Injection.Ranked (asked answer (c'.visitors.forTarget .ofMethod)) l' ∧
        ∃ chain, Chain.ofInjections m l = .ok chain ∧ Chain.ofInjections m l' = .ok chain := by
  have shown : (c.visitors.forTarget .ofMethod).Perm (c'.visitors.forTarget .ofMethod) :=
    permuted.filter _
  have pure₁ : Visitor.AnswerBy (.ofMethod m) answer (c.visitors.forTarget .ofMethod) :=
    fun v mem => pure v (List.mem_filter.1 mem).1
  have pure₂ : Visitor.AnswerBy (.ofMethod m) answer (c'.visitors.forTarget .ofMethod) :=
    fun v mem => pure₁ v (shown.mem_iff.2 mem)
  have accepts (i : Injection σ) : c.Accepts (.ofMethod m) i ↔ c'.Accepts (.ofMethod m) i :=
    ⟨fun h => ⟨h.target, supported ▸ h.supported⟩, fun h => ⟨h.target, supported ▸ h.supported⟩⟩
  have each : (∀ v ∈ c.visitors.forTarget .ofMethod, ∀ i, answer v = some i →
      c.Accepts (.ofMethod m) i) ↔ ∀ v ∈ c'.visitors.forTarget .ofMethod, ∀ i, answer v = some i →
        c'.Accepts (.ofMethod m) i := by
    simp only [shown.mem_iff, accepts]
  have succeeds {l : List (Injection σ)} := compose_eq_ok_iff (l := l) composed pure₁
  have succeeds' {l : List (Injection σ)} := compose_eq_ok_iff (l := l) composed' pure₂
  refine ⟨⟨fun ⟨l, done⟩ => ?_, fun ⟨l, done⟩ => ?_⟩, fun l t l' t' done done' => ?_⟩
  · exact ⟨_, succeeds'.2 ⟨each.1 (succeeds.1 done).1, rfl⟩⟩
  · exact ⟨_, succeeds.2 ⟨each.2 (succeeds'.1 done).1, rfl⟩⟩
  · obtain ⟨accepted, rfl⟩ := succeeds.1 ⟨t, done⟩
    obtain ⟨accepted', rfl⟩ := succeeds'.1 ⟨t', done'⟩
    have ranked := Injection.ranked_sortByRank (asked answer (c.visitors.forTarget .ofMethod))
    have ranked' := Injection.ranked_sortByRank (asked answer (c'.visitors.forTarget .ofMethod))
    refine ⟨ranked, ranked', _, Chain.ofInjections_eq fun i mem => ?_, ?_⟩
    · obtain ⟨v, mem, asks⟩ := List.mem_filterMap.1 (List.mem_filter.1 (ranked.perm.mem_iff.1 mem)).1
      exact (accepted v mem i asks).target
    · rw [Chain.gather_congr fun k => ?_]
      · refine Chain.ofInjections_eq fun i mem => ?_
        obtain ⟨v, mem, asks⟩ :=
          List.mem_filterMap.1 (List.mem_filter.1 (ranked'.perm.mem_iff.1 mem)).1
        exact (accepted' v mem i asks).target
      · refine (ranked.ofKind k).trans (Eq.trans ?_ (ranked'.ofKind k).symm)
        refine (asked_ofKind k).trans (Eq.trans ?_ (asked_ofKind k).symm)
        exact congrArg (fun visitors => (asked answer visitors).filter (·.kind == k)) (kept k)

/-- A visitor that asks for the same at each site. -/
def insisting (name : String) (i : Injection Unit) : Visitor Unit :=
  ⟨name, fun _ => true, fun _ => pure (some i)⟩

/-- A visitor that replaces methods and one that recovers from what they raise, whose injections
have one rank. -/
def insistingPair : Composer Unit :=
  ⟨⟨1, [insisting "a" (.replaceMethod fun _ _ _ _ => pure .void),
    insisting "b" (.errorRecovery fun _ _ _ _ _ => pure .null)]⟩, .all, false⟩

/-- The two in the other order. -/
def insistingBack : Composer Unit :=
  { insistingPair with visitors := ⟨2, insistingPair.visitors.visitors.reverse⟩ }

/-- What is composed differs, but not the chain. -/
theorem compose_permuted_pair :
    insistingPair.visitors.visitors.Perm insistingBack.visitors.visitors ∧
    ∃ l l' t t' chain, insistingPair.compose (.ofMethod default) ⟨{}, ()⟩ = .ok l t ∧
      insistingBack.compose (.ofMethod default) ⟨{}, ()⟩ = .ok l' t' ∧
      l.map (·.kind) = [.replaceMethod, .errorRecovery] ∧
      l'.map (·.kind) = [.errorRecovery, .replaceMethod] ∧
      Chain.ofInjections default l = .ok chain ∧ Chain.ofInjections default l' = .ok chain := by
  have permuted : insistingPair.visitors.visitors.Perm insistingBack.visitors.visitors :=
    (List.reverse_perm _).symm
  let answer (v : Visitor Unit) := (v.visit (.ofMethod default) ()).1
  have kept (k : Kind) : insistingPair.asking answer k = insistingBack.asking answer k := by
    cases k <;> rfl
  have pure (visitors : List (Visitor Unit)) :
      Visitor.AnswerBy (.ofMethod default) answer visitors := fun _ _ _ => rfl
  obtain ⟨same, chains⟩ := compose_permuted (m := default) (pure _) permuted kept rfl
    (composed_empty ()) (composed_empty ())
  have accepts : ∀ v ∈ insistingPair.visitors.forTarget .ofMethod, ∀ i, answer v = some i →
      insistingPair.Accepts (.ofMethod default) i := by
    intro v mem i asks
    rcases List.mem_cons.1 (List.mem_filter.1 mem).1 with rfl | known
    · cases asks
      exact ⟨rfl, rfl⟩
    · obtain rfl := List.mem_singleton.1 known
      cases asks
      exact ⟨rfl, rfl⟩
  have sorted {l : List (Injection Unit)} (level : l.Pairwise fun a b => a.rank ≤ b.rank) :
      Injection.sortByRank l = l :=
    List.mergeSort_of_pairwise (level.imp decide_eq_true)
  obtain ⟨t, done⟩ := (compose_eq_ok_iff (composed_empty ()) (pure _)).2 ⟨accepts, rfl⟩
  obtain ⟨l', t', done'⟩ := same.1 ⟨_, t, done⟩
  obtain ⟨-, rfl⟩ := (compose_eq_ok_iff (composed_empty ()) (pure _)).1 ⟨t', done'⟩
  obtain ⟨-, -, chain, made, made'⟩ := chains _ t _ t' done done'
  refine ⟨permuted, _, _, t, t', chain, done, done', ?_, ?_, made, made'⟩
  · rw [sorted (by decide)]
    rfl
  · rw [sorted (by decide)]
    rfl

end Composer

end Weft
