import Weft.Proofs.ClassFile.Histories

/-!
# Equal constants

A pool may have equal constants, of which it remembers one index. As long as it remembers some index
of each constant that it has, a constant is only added where no equal one is. Adding constants keeps
that, and so does giving a class another name, unless the index that is remembered for the class is
the one that is renamed and an equal class stands elsewhere: that one is lost, and added again.
-/

namespace Weft

namespace Pool

variable {p q r : Pool} {c d old new : Constant} {index : UInt16}

/-! ## Constants without an index -/

/-- The pool has the constant and remembers no index for it. -/
structure Lost (p : Pool) (c : Constant) : Prop where
  usable : c ≠ .unusable
  stands : c ∈ p.entries
  forgotten : c ∉ p.lookup

/-- The pool remembers an index of each constant that it has. -/
def Recalls (p : Pool) : Prop := ∀ c, ¬ p.Lost c

theorem mem_slots_singleton (usable : d ≠ .unusable) : d ∈ slots [c] ↔ d = c := by
  rw [slots_singleton]
  split <;> simp [usable]

theorem mem_push (usable : d ≠ .unusable) :
    d ∈ (p.push c).2.entries ↔ d ∈ p.entries ∨ d = c := by
  rw [← Array.mem_toList_iff, entries_push, List.mem_append, mem_slots_singleton usable,
    Array.mem_toList_iff]

theorem not_mem_lookup_push : d ∉ (p.push c).2.lookup ↔ d ∉ p.lookup ∧ d ≠ c := by
  show d ∉ p.lookup.insertIfNew c (UInt16.ofNat p.entries.size) ↔ _
  rw [Std.HashMap.mem_insertIfNew, not_or, beq_iff_eq, and_comm, ne_eq, eq_comm]

/-- Behind a constant that is added, it alone is not lost any more. -/
theorem lost_push : (p.push c).2.Lost d ↔ p.Lost d ∧ d ≠ c := by
  constructor
  · rintro ⟨usable, stands, forgotten⟩
    obtain ⟨forgotten, other⟩ := not_mem_lookup_push.1 forgotten
    have stands := ((mem_push usable).1 stands).resolve_right other
    exact ⟨⟨usable, stands, forgotten⟩, other⟩
  · rintro ⟨⟨usable, stands, forgotten⟩, other⟩
    exact ⟨usable, (mem_push usable).2 (.inl stands), not_mem_lookup_push.2 ⟨forgotten, other⟩⟩

theorem intern_of_known {i : UInt16} (known : p.lookup[c]? = some i) : intern c p = (i, p) := by
  rw [intern, known]

theorem intern_of_not_mem (unknown : c ∉ p.lookup) : intern c p = p.push c := by
  rw [intern, (getElem?_eq_none_iff _ _).2 unknown]

/-- A constant is added although the pool has it just if it is lost. -/
theorem lost_iff_intern (usable : c ≠ .unusable) :
    p.Lost c ↔ c ∈ p.entries ∧ (intern c p).2.size ≠ p.size := by
  unfold intern
  split
  · rename_i i known
    constructor
    · intro lost
      rw [(getElem?_eq_none_iff _ _).2 lost.forgotten] at known
      cases known
    · rintro ⟨-, grown⟩
      exact absurd rfl grown
  · rename_i unknown
    constructor
    · intro lost
      refine ⟨lost.stands, ?_⟩
      rw [size_push]
      have := length_slots_pos c
      omega
    · rintro ⟨stands, -⟩
      exact ⟨usable, stands, (getElem?_eq_none_iff _ _).1 unknown⟩

/-! ## Additions -/

/-- The second pool is the first with constants added one after the other, each of which the pool
did not have at that moment. -/
inductive AddsFresh (p : Pool) : Pool → Prop where
  | refl : AddsFresh p p
  | push {q : Pool} (c : Constant) (before : AddsFresh p q) (fresh : c ∉ q.entries) :
    AddsFresh p (q.push c).2

namespace AddsFresh

theorem trans (h : p.AddsFresh q) (h' : q.AddsFresh r) : p.AddsFresh r := by
  induction h' with
  | refl => exact h
  | push c before fresh ih => exact .push c ih fresh

theorem recalls (h : p.AddsFresh q) (recalls : p.Recalls) : q.Recalls := by
  induction h with
  | refl => exact recalls
  | push c before fresh ih => exact fun d lost => ih d (lost_push.1 lost).1

end AddsFresh

/-- Where no constant is lost, the change adds no constant that the pool has. -/
def Freshly {α : Type} (x : StateM Pool α) : Prop := ∀ p : Pool, p.Recalls → p.AddsFresh (x p).2

section Freshly

variable {α β : Type}

theorem Freshly.bind {x : StateM Pool α} {f : α → StateM Pool β} (h : Freshly x)
    (h' : ∀ a, Freshly (f a)) : Freshly (x >>= f) := by
  intro p recalls
  have first := h p recalls
  exact first.trans (h' (x p).1 (x p).2 (first.recalls recalls))

theorem freshly_intern (usable : c ≠ .unusable) : Freshly (intern c) := by
  intro p recalls
  unfold intern
  split
  · exact .refl
  · rename_i unknown
    refine .push c .refl ?_
    intro stands
    exact recalls c ⟨usable, stands, (getElem?_eq_none_iff _ _).1 unknown⟩

theorem freshly_addUtf8 (text : String) : Freshly (addUtf8 text) := freshly_intern (by simp)

theorem freshly_addClass (name : String) : Freshly (addClass name) :=
  (freshly_addUtf8 name).bind fun _ => freshly_intern (by simp)

theorem freshly_addString (text : String) : Freshly (addString text) :=
  (freshly_addUtf8 text).bind fun _ => freshly_intern (by simp)

theorem freshly_addNameAndType (name descriptor : String) :
    Freshly (addNameAndType name descriptor) :=
  (freshly_addUtf8 name).bind fun _ => (freshly_addUtf8 descriptor).bind fun _ =>
    freshly_intern (by simp)

/-- Every addition interns its parts, and then itself. -/
theorem Addition.freshly (a : Addition) : Freshly a.add := by
  cases a with
  | utf8 text => exact freshly_addUtf8 text
  | classRef name => exact freshly_addClass name
  | string text => exact freshly_addString text
  | literal value =>
    cases value with
    | string text => exact freshly_addString text
    | _ => exact freshly_intern (by simp)
  | nameAndType name descriptor => exact freshly_addNameAndType name descriptor
  | fieldRef owner name descriptor =>
    exact (freshly_addClass owner).bind fun _ => (freshly_addNameAndType name descriptor).bind
      fun _ => freshly_intern (by simp)
  | methodRef owner name descriptor isInterface =>
    refine (freshly_addClass owner).bind fun _ => (freshly_addNameAndType name descriptor).bind
      fun _ => freshly_intern ?_
    split <;> simp

end Freshly

/-! ## Renaming -/

theorem mem_replace (found : p.get index = .ok old) :
    d ∈ (p.replace index old new).entries ↔
      d = new ∨ ∃ n, n ≠ index.toNat ∧ p.entries[n]? = some d := by
  rw [Array.mem_iff_getElem?]
  constructor
  · rintro ⟨n, stands⟩
    by_cases here : index.toNat = n
    · subst here
      rw [getElem?_replace_self found] at stands
      exact .inl (Option.some.inj stands).symm
    · rw [getElem?_replace here] at stands
      exact .inr ⟨n, Ne.symm here, stands⟩
  · rintro (rfl | ⟨n, elsewhere, stands⟩)
    · exact ⟨index.toNat, getElem?_replace_self found⟩
    · exact ⟨n, by rwa [getElem?_replace (Ne.symm elsewhere)]⟩

theorem not_mem_lookup_replace : d ∉ (p.replace index old new).lookup ↔
    d ≠ new ∧ (d ∉ p.lookup ∨ d = old ∧ p.lookup[old]? = some index) := by
  show d ∉ (if p.lookup[old]? = some index then p.lookup.erase old else p.lookup).insertIfNew new
    index ↔ _
  rw [Std.HashMap.mem_insertIfNew, not_or, beq_iff_eq, ne_eq, eq_comm]
  refine and_congr_right fun _ => ?_
  split
  · rename_i here
    rw [Std.HashMap.mem_erase, not_and_or, Bool.not_eq_false, beq_iff_eq, or_comm, eq_comm]
    simp only [here, and_true]
  · rename_i elsewhere
    simp only [elsewhere, and_false, or_false]

theorem getElem?_lookup_replace (before : d ≠ old) (behind : d ≠ new) :
    (p.replace index old new).lookup[d]? = p.lookup[d]? := by
  show ((if p.lookup[old]? = some index then p.lookup.erase old else p.lookup).insertIfNew new
    index)[d]? = _
  rw [Std.HashMap.getElem?_insertIfNew, if_neg]
  · split
    · rw [Std.HashMap.getElem?_erase, if_neg]
      intro same
      exact before (eq_of_beq same).symm
    · rfl
  · rintro ⟨same, -⟩
    exact behind (eq_of_beq same).symm

/-- What is lost behind a replacement: constants that stand elsewhere and were lost before, or whose
index was that of the replacement. -/
theorem lost_replace (found : p.get index = .ok old) : (p.replace index old new).Lost d ↔
    d ≠ .unusable ∧ d ≠ new ∧ (∃ n, n ≠ index.toNat ∧ p.entries[n]? = some d) ∧
      (d ∉ p.lookup ∨ d = old ∧ p.lookup[old]? = some index) := by
  constructor
  · rintro ⟨usable, stands, forgotten⟩
    obtain ⟨other, reason⟩ := not_mem_lookup_replace.1 forgotten
    exact ⟨usable, other, ((mem_replace found).1 stands).resolve_left other, reason⟩
  · rintro ⟨usable, other, elsewhere, reason⟩
    exact ⟨usable, (mem_replace found).2 (.inr elsewhere), not_mem_lookup_replace.2 ⟨other, reason⟩⟩

/-- The class at the index gets another name. It was remembered at that index, although it stands at
another one as well. -/
structure Strands (p : Pool) (index : UInt16) (name : String) (text : UInt16) : Prop where
  found : p.get index = .ok (.classRef text)
  remembered : p.lookup[Constant.classRef text]? = some index
  elsewhere : ∃ n, n ≠ index.toNat ∧ p.entries[n]? = some (.classRef text)
  another : (addUtf8 name p).1 ≠ text

theorem getElem?_intern (other : d ≠ c) (usable : d ≠ .unusable) {n : Nat} :
    (intern c p).2.entries[n]? = some d ↔ p.entries[n]? = some d := by
  unfold intern
  split
  · exact Iff.rfl
  · have absent : d ∉ slots [c] := fun mem => other ((mem_slots_singleton usable).1 mem)
    rw [← Array.getElem?_toList, ← Array.getElem?_toList, entries_push]
    by_cases old : n < p.entries.toList.length
    · rw [List.getElem?_append_left old]
    · have beyond : p.entries.toList[n]? = none := List.getElem?_eq_none (Nat.not_lt.1 old)
      rw [List.getElem?_append_right (Nat.not_lt.1 old), beyond]
      constructor
      · intro found
        exact absurd (List.mem_of_getElem? found) absent
      · nofun

theorem getElem?_lookup_intern (other : d ≠ c) : (intern c p).2.lookup[d]? = p.lookup[d]? := by
  unfold intern
  split
  · rfl
  · show (p.lookup.insertIfNew c (UInt16.ofNat p.entries.size))[d]? = _
    rw [Std.HashMap.getElem?_insertIfNew, if_neg]
    rintro ⟨same, -⟩
    exact other (eq_of_beq same).symm

theorem rename_eq_ok {name : String} {text : UInt16} (found : p.get index = .ok (.classRef text))
    (renamed : p.rename index name = .ok q) : q =
      (addUtf8 name p).2.replace index (.classRef text) (.classRef (addUtf8 name p).1) := by
  rcases rename_cases p index name with ⟨text', found', renamed'⟩ | ⟨refused, -⟩
  · rw [found] at found'
    cases found'
    exact (Except.ok.inj (renamed'.symm.trans renamed)).symm
  · exact absurd found (refused text)

section Renaming

variable {name : String} {text : UInt16}

theorem Strands.lost (h : p.Strands index name text) (renamed : p.rename index name = .ok q) :
    q.Lost (.classRef text) := by
  obtain ⟨found, remembered, ⟨n, elsewhere, stands⟩, another⟩ := h
  obtain rfl := rename_eq_ok found renamed
  have named := get_mono (grows_addUtf8 name p).keeps found
  refine (lost_replace named).2 ⟨by simp, ?_, ⟨n, elsewhere, ?_⟩, .inr ⟨rfl, ?_⟩⟩
  · intro same
    exact another (Constant.classRef.inj same).symm
  · exact (getElem?_intern (by simp) (by simp)).2 stands
  · rwa [addUtf8, getElem?_lookup_intern (by simp)]

/-- A class is lost by a renaming just if the renaming strands it. -/
theorem recalls_rename_iff (recalls : p.Recalls) (found : p.get index = .ok (.classRef text))
    (renamed : p.rename index name = .ok q) : q.Recalls ↔ ¬ p.Strands index name text := by
  constructor
  · intro all strands
    exact all _ (strands.lost renamed)
  · intro kept d lost
    obtain rfl := rename_eq_ok found renamed
    have named := get_mono (grows_addUtf8 name p).keeps found
    obtain ⟨usable, different, ⟨n, elsewhere, stands⟩, reason⟩ := (lost_replace named).1 lost
    rcases reason with forgotten | ⟨rfl, remembered⟩
    · have recalls' := (freshly_addUtf8 name p recalls).recalls recalls
      exact recalls' d ⟨usable, Array.mem_of_getElem? stands, forgotten⟩
    · apply kept
      refine ⟨found, ?_, ⟨n, elsewhere, ?_⟩, ?_⟩
      · rwa [addUtf8, getElem?_lookup_intern (by simp)] at remembered
      · exact (getElem?_intern (by simp) usable).1 stands
      · rintro rfl
        exact different rfl

/-- A class that was stranded is added once more by its name, although the pool has it. -/
theorem Strands.added_again {old : String} (h : p.Strands index name text)
    (known : p.lookup[Constant.utf8 old]? = some text) (renamed : p.rename index name = .ok q) :
    .classRef text ∈ q.entries ∧ addClass old q = q.push (.classRef text) := by
  have lost := h.lost renamed
  refine ⟨lost.stands, ?_⟩
  obtain rfl := rename_eq_ok h.found renamed
  have other : Constant.utf8 old ≠ .utf8 name := by
    intro same
    rw [same] at known
    exact h.another (congrArg Prod.fst (intern_of_known known))
  have kept : (addUtf8 name p).2.lookup[Constant.utf8 old]? = some text := by
    rwa [addUtf8, getElem?_lookup_intern other]
  have stays : ((addUtf8 name p).2.replace index (.classRef text)
      (.classRef (addUtf8 name p).1)).lookup[Constant.utf8 old]? = some text :=
    (getElem?_lookup_replace (by simp) (by simp)).trans kept
  exact (state_bind (intern_of_known stays)).trans (intern_of_not_mem lost.forgotten)

end Renaming

/-- Two classes of one name. -/
def twoClasses : Pool := pushAll [.utf8 "A", .classRef 1, .classRef 1] empty

theorem sound_twoClasses : twoClasses.Sound := sound_pushAll (by simp) sound_empty

/-- The first of two classes of one name gets another name. -/
theorem strands_twoClasses : twoClasses.Strands 2 "B" 1 where
  found := rfl
  remembered := sound_twoClasses.first (.classRef 1) (by decide +kernel) (by simp)
  elsewhere := ⟨3, by decide, rfl⟩
  another := by
    have added : addUtf8 "B" twoClasses = (4, (twoClasses.push (.utf8 "B")).2) :=
      sound_twoClasses.intern_of_fresh (by decide +kernel)
    rw [added]
    decide

/-- The other class, which stands at index 3, is not found by its name, and is added again. -/
theorem twoClasses_added_again : ∃ q, twoClasses.rename 2 "B" = .ok q ∧
    .classRef 1 ∈ q.entries ∧ addClass "A" q = q.push (.classRef 1) := by
  obtain ⟨q, renamed⟩ : ∃ q, twoClasses.rename 2 "B" = .ok q := by
    rcases rename_cases twoClasses 2 "B" with ⟨text, -, renamed⟩ | ⟨refused, -⟩
    · exact ⟨_, renamed⟩
    · exact absurd strands_twoClasses.found (refused 1)
  have known := sound_twoClasses.first (.utf8 "A") (by decide +kernel) (by simp)
  exact ⟨q, renamed, strands_twoClasses.added_again known renamed⟩

/-! ## Histories -/

theorem recalls_empty : Recalls empty := by
  rintro c ⟨usable, stands, -⟩
  exact usable (by simpa [empty] using stands)

theorem Sound.recalls (h : p.Sound) : p.Recalls := by
  rintro c ⟨usable, stands, forgotten⟩
  have known := h.first c stands.val usable
  rw [(getElem?_eq_none_iff _ _).2 forgotten] at known
  cases known

theorem Starts.recalls (h : p.Starts) : p.Recalls := by
  rcases h with rfl | ⟨s, s', read⟩
  · exact sound_empty.recalls
  · exact (sound_of_read read).1.recalls

/-- The request does not strand a class. -/
def Request.Spares (p : Pool) : Request → Prop
  | .add _ => True
  | .rename index name => ∀ text, ¬ p.Strands index name text

theorem Recalls.serve (h : p.Recalls) {r : Request} (spares : r.Spares p) :
    (r.serve p).2.Recalls := by
  cases r with
  | add a => exact (a.freshly p h).recalls h
  | rename index name =>
    rcases rename_cases p index name with ⟨text, found, renamed⟩ | ⟨-, e, failed⟩
    · have kept := (recalls_rename_iff h found renamed).2 (spares text)
      simpa only [Request.serve, renamed] using kept
    · simpa only [Request.serve, failed] using h

theorem Recalls.after (h : p.Recalls) {rs : List Request}
    (spares : ∀ before r later, rs = before ++ r :: later → r.Spares (p.after before)) :
    (p.after rs).Recalls := by
  induction rs generalizing p with
  | nil => exact h
  | cons r rs ih =>
    have first : r.Spares p := spares [] r rs rfl
    refine ih (h.serve first) ?_
    rintro before r' later rfl
    exact spares (r :: before) r' later rfl

/-- In a history in which no renaming strands a class, constants are only added that the pool does
not have at that moment. -/
theorem adds_fresh (start : p.Starts) {rs : List Request}
    (spares : ∀ before r later, rs = before ++ r :: later → r.Spares (p.after before))
    {before later : List Request} {a : Addition} (split : rs = before ++ .add a :: later) :
    (p.after before).AddsFresh (a.add (p.after before)).2 := by
  subst split
  apply a.freshly
  apply start.recalls.after
  rintro before' r' later' rfl
  apply spares before' r' (later' ++ .add a :: later)
  simp

end Pool

end Weft
