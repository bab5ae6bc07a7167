import Weft.Proofs.ClassFile.WellFormed

/-!
# Histories of pools

A pool starts without constants or as it is read, and serves requests that add constants or rename
a class. As long as the pool it comes to can still be written, each constant that was added stands
where the answer says, no request changes what stood at an index but for the class that it renames,
and slot zero and the slots behind wide constants stay unusable; what is written of the pool is read
as the same constants.
-/

namespace Weft

namespace Pool

variable {p q : Pool} {index : UInt16}

/-! ## Unusable slots -/

/-- The index is slot zero or the slot behind a wide constant. -/
def Reserved (p : Pool) (index : UInt16) : Prop :=
  index = 0 ∨ ∃ n c, p.entries[n]? = some c ∧ c.isWide = true ∧ index.toNat = n + 1

/-- The index is refused, whatever it is expected to stand for. -/
structure Refuses (p : Pool) (index : UInt16) : Prop where
  get : p.get index = .error (.malformed (.poolIndex index p.size))
  utf8 : p.utf8 index = .error (.malformed (.poolIndex index p.size))
  className : p.className index = .error (.malformed (.poolIndex index p.size))
  nameAndType : p.nameAndType index = .error (.malformed (.poolIndex index p.size))
  memberRef : p.memberRef index = .error (.malformed (.poolIndex index p.size))
  literal : p.literal index = .error (.malformed (.poolIndex index p.size))

/-- Every look-up starts with the constant at the index. -/
theorem refuses_of_unusable (h : p.entries[index.toNat]? = some .unusable) : p.Refuses index := by
  have refused : p.get index = .error (.malformed (.poolIndex index p.size)) := by
    rw [Pool.get, h]
  constructor
  · exact refused
  all_goals
    simp only [Pool.utf8, Pool.className, Pool.nameAndType, Pool.memberRef, Pool.literal, refused]
    rfl

theorem slots_cons (c : Constant) (cs : List Constant) :
    slots (c :: cs) = (if c.isWide then [c, .unusable] else [c]) ++ slots cs := List.flatMap_cons

theorem unusable_behind {cs : List Constant} {n : Nat} {c : Constant}
    (found : (slots cs)[n]? = some c) (wide : c.isWide = true) :
    (slots cs)[n + 1]? = some .unusable := by
  induction cs generalizing n with
  | nil => simp [slots] at found
  | cons d cs ih =>
    rw [slots_cons] at found ⊢
    by_cases hd : d.isWide = true
    · rw [if_pos hd] at found ⊢
      rcases n with _ | _ | n
      · simp
      · -- an unusable slot is not wide
        simp only [List.cons_append, List.getElem?_cons_succ, List.getElem?_cons_zero,
          Option.some.injEq] at found
        subst found
        cases wide
      · simpa using ih (by simpa using found)
    · rw [if_neg hd] at found ⊢
      cases n with
      | zero =>
        simp only [List.cons_append, List.getElem?_cons_zero, Option.some.injEq] at found
        subst found
        exact absurd wide hd
      | succ n => simpa using ih (by simpa using found)

/-- A narrow constant may stand in place of another. -/
theorem slots_set {cs : List Constant} {n : Nat} {c d : Constant} (found : (slots cs)[n]? = some c)
    (usable : c ≠ .unusable) (narrow : c.isWide = false) (narrow' : d.isWide = false) :
    ∃ i, (slots cs).set n d = slots (cs.set i d) := by
  induction cs generalizing n with
  | nil => simp [slots] at found
  | cons e cs ih =>
    rw [slots_cons] at found ⊢
    by_cases he : e.isWide = true
    · rw [if_pos he] at found ⊢
      rcases n with _ | _ | n
      · simp only [List.cons_append, List.getElem?_cons_zero, Option.some.injEq] at found
        subst found
        rw [he] at narrow
        cases narrow
      · simp only [List.cons_append, List.getElem?_cons_succ, List.getElem?_cons_zero,
          Option.some.injEq] at found
        exact absurd found.symm usable
      · obtain ⟨i, same⟩ := ih (n := n) (by simpa using found)
        refine ⟨i + 1, ?_⟩
        simp [slots_cons, he, same]
    · rw [if_neg he] at found ⊢
      cases n with
      | zero => exact ⟨0, by simp [slots_cons, narrow']⟩
      | succ n =>
        obtain ⟨i, same⟩ := ih (n := n) (by simpa using found)
        refine ⟨i + 1, ?_⟩
        simp [slots_cons, he, same]

namespace Laid

theorem zero (h : p.Laid) : p.entries[0]? = some .unusable := by
  obtain ⟨cs, laid, -⟩ := h
  rw [← Array.getElem?_toList, laid]
  rfl

theorem behind (h : p.Laid) {n : Nat} {c : Constant} (found : p.entries[n]? = some c)
    (wide : c.isWide = true) : p.entries[n + 1]? = some .unusable := by
  obtain ⟨cs, laid, -⟩ := h
  rw [← Array.getElem?_toList, laid] at found ⊢
  match n with
  | 0 =>
    cases found
    cases wide
  | n + 1 => exact unusable_behind found wide

theorem refuses (h : p.Laid) (reserved : p.Reserved index) : p.Refuses index := by
  apply refuses_of_unusable
  rcases reserved with rfl | ⟨n, c, found, wide, place⟩
  · exact h.zero
  · rw [place]
    exact h.behind found wide

theorem continued (h : p.Laid) (added : p.Continued q) : q.Laid := by
  obtain ⟨cs, laid, usable⟩ := h
  obtain ⟨ds, more, usable'⟩ := added
  refine ⟨cs ++ ds, ?_, ?_⟩
  · rw [more, laid, slots_append]
    rfl
  · intro c mem
    exact (List.mem_append.1 mem).elim (usable c) (usable' c)

theorem replace (h : p.Laid) {old new : Constant} (found : p.get index = .ok old)
    (narrow : old.isWide = false) (narrow' : new.isWide = false) (usable : new ≠ .unusable) :
    (p.replace index old new).Laid := by
  obtain ⟨found, usable'⟩ := get_eq_ok found
  obtain ⟨cs, laid, all⟩ := h
  have set : (p.replace index old new).entries.toList = p.entries.toList.set index.toNat new :=
    Array.toList_setIfInBounds
  rw [← Array.getElem?_toList, laid] at found
  rw [laid] at set
  obtain ⟨n, place⟩ : ∃ n, index.toNat = n + 1 := by
    apply Nat.exists_eq_succ_of_ne_zero
    intro zero
    rw [zero] at found
    cases found
    exact usable' rfl
  rw [place] at found set
  obtain ⟨i, same⟩ := slots_set found usable' narrow narrow'
  refine ⟨cs.set i new, ?_, ?_⟩
  · rw [set, List.set_cons_succ, same]
  · intro c mem
    rcases List.mem_or_eq_of_mem_set mem with mem | rfl
    · exact all c mem
    · exact usable

end Laid

/-! ## Renaming -/

theorem getElem?_replace {old new : Constant} {n : Nat} (other : index.toNat ≠ n) :
    (p.replace index old new).entries[n]? = p.entries[n]? :=
  Array.getElem?_setIfInBounds_ne other

theorem getElem?_replace_self {old new : Constant} (found : p.get index = .ok old) :
    (p.replace index old new).entries[index.toNat]? = some new := by
  obtain ⟨bound, -⟩ := Array.getElem?_eq_some_iff.1 (get_eq_ok found).1
  exact Array.getElem?_setIfInBounds_self_of_lt bound

theorem size_replace {old new : Constant} : (p.replace index old new).size = p.size :=
  Array.size_setIfInBounds

/-- The index is forgotten for the constant that it had. -/
theorem lookup_replace {old new d : Constant} {i : UInt16}
    (known : (p.replace index old new).lookup[d]? = some i) :
    (d = new ∧ i = index) ∨
      (p.lookup[d]? = some i ∧ ¬ (p.lookup[old]? = some index ∧ d = old)) := by
  unfold replace at known
  dsimp only at known
  generalize same : (if p.lookup[old]? = some index then p.lookup.erase old else p.lookup) = kept
    at known
  rw [Std.HashMap.getElem?_insertIfNew] at known
  split at known
  · rename_i fresh
    cases known
    exact .inl ⟨(eq_of_beq fresh.1).symm, rfl⟩
  · right
    subst same
    split at known
    · rw [Std.HashMap.getElem?_erase] at known
      split at known
      · cases known
      · rename_i different
        exact ⟨known, fun ⟨_, same⟩ => different (by simp [same])⟩
    · rename_i elsewhere
      exact ⟨known, fun ⟨here, _⟩ => elsewhere here⟩

/-- Of the constants that are remembered only the replaced one could be at the index. -/
theorem Remembers.replace (h : p.Remembers) {old new : Constant} (found : p.get index = .ok old) :
    (p.replace index old new).Remembers := by
  intro d i known
  rcases lookup_replace known with ⟨rfl, rfl⟩ | ⟨before, kept⟩
  · exact ⟨i.toNat, getElem?_replace_self found, UInt16.ofNat_toNat.symm⟩
  · obtain ⟨n, at_n, rfl⟩ := h d i before
    refine ⟨n, ?_, rfl⟩
    rw [getElem?_replace]
    · exact at_n
    · rintro rfl
      obtain rfl : d = old := Option.some.inj (at_n.symm.trans (get_eq_ok found).1)
      rw [UInt16.ofNat_toNat] at before
      exact kept ⟨before, rfl⟩

/-- A class is renamed behind a text that is added; nothing but a class can be renamed. -/
theorem rename_cases (p : Pool) (index : UInt16) (name : String) :
    (∃ text, p.get index = .ok (.classRef text) ∧ p.rename index name =
      .ok ((addUtf8 name p).2.replace index (.classRef text) (.classRef (addUtf8 name p).1))) ∨
    (∀ text, p.get index ≠ .ok (.classRef text)) ∧ ∃ e, p.rename index name = .error e := by
  unfold rename
  cases found : p.get index with
  | error e => exact .inr ⟨fun text same => (by cases same), e, rfl⟩
  | ok c =>
    cases c with
    | classRef text => exact .inl ⟨text, rfl, rfl⟩
    | _ => exact .inr ⟨fun text same => (by cases same), _, rfl⟩

/-! ## Requests -/

/-- A constant to add. -/
inductive Addition where
  | utf8 (text : String)
  | classRef (name : String)
  | string (text : String)
  | literal (value : Literal)
  | nameAndType (name descriptor : String)
  | fieldRef (owner name descriptor : String)
  | methodRef (owner name descriptor : String) (isInterface : Bool)

namespace Addition

/-- Adds the constant; the answer is its index. -/
def add : Addition → StateM Pool UInt16
  | utf8 text => addUtf8 text
  | classRef name => addClass name
  | string text => addString text
  | literal value => addLiteral value
  | nameAndType name descriptor => addNameAndType name descriptor
  | fieldRef owner name descriptor => addFieldRef owner name descriptor
  | methodRef owner name descriptor isInterface => addMethodRef owner name descriptor isInterface

/-- The index resolves to what was to be added, with the names of classes in their internal form. -/
def ResolvesAt (p : Pool) (index : UInt16) : Addition → Prop
  | utf8 text => p.utf8 index = .ok text
  | classRef name => p.className index = .ok (.ofText name)
  | string text => p.literal index = .ok (.string text)
  | literal value => p.literal index = .ok value
  | nameAndType name descriptor => p.nameAndType index = .ok (name, descriptor)
  | fieldRef owner name descriptor =>
    p.memberRef index = .ok ⟨.ofText owner, name, descriptor, false⟩
  | methodRef owner name descriptor isInterface =>
    p.memberRef index = .ok ⟨.ofText owner, name, descriptor, isInterface⟩

/-- Where a sound pool is small enough to be written, what was added is found. -/
theorem places (a : Addition) :
    Places a.add fun p index => p.size ≤ 65536 → a.ResolvesAt p index := by
  cases a with
  | utf8 text => exact (places_addUtf8 text).imp fun p index held => held.utf8
  | classRef name => exact (places_addClass name).imp fun p index held => held.className
  | string text =>
    exact (places_addString text).imp fun p index held =>
      HoldsLiteral.literal (v := .string text) held
  | literal value => exact (places_addLiteral value).imp fun p index held => held.literal
  | nameAndType name descriptor =>
    exact (places_addNameAndType name descriptor).imp fun p index held => held.nameAndType
  | fieldRef owner name descriptor =>
    exact (places_addFieldRef owner name descriptor).imp fun p index held => held.memberRef
  | methodRef owner name descriptor isInterface =>
    exact (places_addMethodRef owner name descriptor isInterface).imp
      fun p index held => held.memberRef

/-- What resolves is no unusable slot. -/
theorem ResolvesAt.not_refuses {a : Addition} (h : a.ResolvesAt p index) : ¬ p.Refuses index := by
  intro refused
  cases a with
  | utf8 text => cases refused.utf8.symm.trans h
  | classRef name => cases refused.className.symm.trans h
  | string text => cases refused.literal.symm.trans h
  | literal value => cases refused.literal.symm.trans h
  | nameAndType name descriptor => cases refused.nameAndType.symm.trans h
  | fieldRef owner name descriptor => cases refused.memberRef.symm.trans h
  | methodRef owner name descriptor isInterface => cases refused.memberRef.symm.trans h

end Addition

/-- A request to a pool. -/
inductive Request where
  | add (a : Addition)
  | rename (index : UInt16) (name : String)

/-- What a request answers and the pool behind it, which a refused request leaves as it was. -/
def Request.serve (p : Pool) : Request → Except Error (Option UInt16) × Pool
  | add a => (.ok (some (a.add p).1), (a.add p).2)
  | rename index name =>
    match p.rename index name with
    | .ok q => (.ok none, q)
    | .error e => (.error e, p)

/-- The pool behind a list of requests. -/
def after (p : Pool) (requests : List Request) : Pool :=
  requests.foldl (fun p r => (r.serve p).2) p

/-- The pool serves the request: what is added stands where the answer says, at an index of no
unusable slot, and every constant stays where it is but for the class that the request renames. -/
structure Serves (p : Pool) (r : Request) : Prop where
  answers : ∀ a, r = .add a → ∃ index, (r.serve p).1 = .ok (some index) ∧
    a.ResolvesAt (r.serve p).2 index ∧ ¬ (r.serve p).2.Reserved index
  keeps : ∀ index c, p.get index = .ok c →
    ((r.serve p).2.get index = .ok c ∨ ∃ text name, c = .classRef text ∧ r = .rename index name)
  renames : ∀ index name text, r = .rename index name → p.get index = .ok (.classRef text) →
    (r.serve p).1 = .ok none ∧ (r.serve p).2.className index = .ok (.ofText name)

/-- What the pool goes through a history with: its slots are in order, and it remembers rightly. -/
structure Steady (p : Pool) : Prop where
  laid : p.Laid
  remembers : p.Remembers

theorem size_le_serve (p : Pool) (r : Request) : p.size ≤ (r.serve p).2.size := by
  cases r with
  | add a => exact (a.places.continued p).keeps.size_le
  | rename index name =>
    rcases rename_cases p index name with ⟨text, -, renamed⟩ | ⟨-, e, refused⟩
    · simp only [Request.serve, renamed, size_replace]
      exact (grows_addUtf8 name p).keeps.size_le
    · simp only [Request.serve, refused, Nat.le_refl]

theorem Steady.add (h : p.Steady) {a : Addition} (small : (a.add p).2.size < 65536) :
    p.Serves (.add a) ∧ (a.add p).2.Steady := by
  have continued := a.places.continued p
  have laid := h.laid.continued continued
  refine ⟨⟨?_, ?_, ?_⟩, laid, a.places.remembers p h.remembers⟩
  · rintro _ ⟨⟩
    have found := a.places.placed p h.remembers _ (.refl _) (Nat.le_of_lt small)
    exact ⟨_, rfl, found, fun reserved => found.not_refuses (laid.refuses reserved)⟩
  · intro index c found
    exact .inl (get_mono continued.keeps found)
  · rintro _ _ _ ⟨⟩

/-- The new name is a text, so it does not stand at the index of the class. -/
theorem Steady.rename (h : p.Steady) {name : String}
    (small : ((Request.rename index name).serve p).2.size < 65536) :
    p.Serves (.rename index name) ∧ ((Request.rename index name).serve p).2.Steady := by
  rcases rename_cases p index name with ⟨text, found, renamed⟩ | ⟨refused, e, failed⟩
  · have continued := (places_addUtf8 name).continued p
    have remembers := (places_addUtf8 name).remembers p h.remembers
    have held := (places_addUtf8 name).placed p h.remembers _ (.refl _)
    have found' := get_mono continued.keeps found
    have laid := h.laid.continued continued
    simp only [Request.serve, renamed, size_replace] at small ⊢
    generalize addUtf8 name p = added at *
    obtain ⟨position, p₁⟩ := added
    dsimp only at *
    refine ⟨⟨nofun, ?_, ?_⟩, laid.replace found' rfl rfl (by simp),
      remembers.replace found'⟩
    · intro i c at_i
      simp only [Request.serve, renamed]
      by_cases here : i = index
      · subst here
        obtain rfl : .classRef text = c := Except.ok.inj (found.symm.trans at_i)
        exact .inr ⟨text, name, rfl, rfl⟩
      · obtain ⟨later, usable⟩ := get_eq_ok (get_mono continued.keeps at_i)
        refine .inl (get_of_getElem? ?_ usable)
        rw [getElem?_replace]
        · exact later
        · exact fun same => here (UInt16.toNat_inj.1 same).symm
    · rintro _ _ text' ⟨⟩ -
      simp only [Request.serve, renamed, true_and]
      have stands := held.getElem? (Nat.le_of_lt small)
      have other : index.toNat ≠ position.toNat := by
        intro same
        rw [← same, (get_eq_ok found').1] at stands
        cases stands
      have named : (p₁.replace index (.classRef text) (.classRef position)).get position =
          .ok (.utf8 name) := by
        refine get_of_getElem? ?_ (by simp)
        rw [getElem?_replace other]
        exact stands
      have points : (p₁.replace index (.classRef text) (.classRef position)).get index =
          .ok (.classRef position) := get_of_getElem? (getElem?_replace_self found') (by simp)
      refine except_bind_eq_ok.2 ⟨_, points, except_bind_eq_ok.2 ⟨name, ?_, rfl⟩⟩
      rw [Pool.utf8, named]
      rfl
  · simp only [Request.serve, failed]
    refine ⟨⟨nofun, ?_, ?_⟩, h⟩
    · intro i c at_i
      exact .inl (by simpa only [Request.serve, failed] using at_i)
    · rintro _ _ text ⟨⟩ found
      exact absurd found (refused text)

theorem Steady.serve (h : p.Steady) (r : Request) (small : (r.serve p).2.size < 65536) :
    p.Serves r ∧ (r.serve p).2.Steady := by
  cases r with
  | add a => exact h.add small
  | rename index name => exact h.rename small

/-! ## Histories -/

theorem size_le_after (p : Pool) (rs : List Request) : p.size ≤ (p.after rs).size := by
  induction rs generalizing p with
  | nil => exact Nat.le_refl _
  | cons r rs ih => exact Nat.le_trans (size_le_serve p r) (ih _)

theorem Steady.after (h : p.Steady) (rs : List Request) (small : (p.after rs).size < 65536) :
    (p.after rs).Steady := by
  induction rs generalizing p with
  | nil => exact h
  | cons r rs ih =>
    have bound := Nat.lt_of_le_of_lt (size_le_after (r.serve p).2 rs) small
    exact ih (h.serve r bound).2 small

theorem after_append (p : Pool) (rs rs' : List Request) :
    p.after (rs ++ rs') = (p.after rs).after rs' := List.foldl_append

/-- The pool is without constants, or it was read. -/
def Starts (p : Pool) : Prop := p = empty ∨ ∃ s s', read s = .ok p s'

theorem Starts.steady (h : p.Starts) : p.Steady := by
  have sound : p.Sound := by
    rcases h with rfl | ⟨s, s', read⟩
    · exact sound_empty
    · exact (sound_of_read read).1
  exact ⟨sound.laid, sound.known⟩

theorem Laid.takes_write (h : p.Laid) {bs : Bytes} (written : p.write = .ok bs) :
    ∃ q, q.entries = p.entries ∧ ∀ pos, read.Takes pos bs q := by
  obtain ⟨r, sound, same⟩ := h.exists_sound
  obtain ⟨-, q, same', taken⟩ := Pool.takes_write sound ((write_congr same).trans written)
  exact ⟨q, same'.trans same, taken⟩

theorem size_of_write {bs : Bytes} (written : p.write = .ok bs) : p.size < 65536 := by
  unfold write at written
  split at written
  · assumption
  · cases written

/-- A pool that can be written in the end has served each of its requests, refused every unusable
slot all along, and is read back with the constants that it has. -/
theorem serves_history (start : p.Starts) {rs : List Request} {bs : Bytes}
    (written : (p.after rs).write = .ok bs) :
    (∀ before r later, rs = before ++ r :: later → (p.after before).Serves r) ∧
    (∀ before later, rs = before ++ later → ∀ index, (p.after before).Reserved index →
      (p.after before).Refuses index) ∧
    ∃ q, q.entries = (p.after rs).entries ∧ ∀ pos, read.Takes pos bs q := by
  have small := size_of_write written
  have steady {before later : List Request} (split : rs = before ++ later) :
      (p.after before).Steady := by
    subst split
    rw [after_append] at small
    exact start.steady.after before (Nat.lt_of_le_of_lt (size_le_after _ later) small)
  refine ⟨?_, ?_, ?_⟩
  · rintro before r later rfl
    rw [after_append] at small
    have bound := Nat.lt_of_le_of_lt (size_le_after (r.serve (p.after before)).2 later) small
    exact ((steady rfl).serve r bound).1
  · intro before later split index reserved
    exact (steady split).laid.refuses reserved
  · exact (steady (List.append_nil rs).symm).laid.takes_write written

/-- A number of two slots is added, then a class, which is renamed. -/
def renamingRequests : List Request :=
  [.add (.literal (.long 5)), .add (.classRef "a.B"), .rename 4 "c/D"]

/-- The constants before they are renamed. -/
def beforeRenaming : Pool := pushAll [.long 5, .utf8 "a.B", .classRef 3] empty

theorem sound_beforeRenaming : beforeRenaming.Sound := sound_pushAll (by simp) sound_empty

theorem after_renamingRequests : empty.after renamingRequests =
    (beforeRenaming.push (.utf8 "c/D")).2.replace 4 (.classRef 3) (.classRef 5) := by
  have number : addLiteral (.long 5) empty = (1, pushAll [.long 5] empty) :=
    sound_empty.intern_of_fresh (by decide +kernel)
  have sound : (pushAll [.long 5] empty).Sound := sound_pushAll (by simp) sound_empty
  have name : addUtf8 "a.B" (pushAll [.long 5] empty) =
      (3, pushAll [.long 5, .utf8 "a.B"] empty) :=
    sound.intern_of_fresh (by decide +kernel)
  have added : addClass "a.B" (pushAll [.long 5] empty) = (4, beforeRenaming) :=
    (state_bind name).trans ((sound_pushAll (by simp) sound_empty).intern_of_fresh
      (by decide +kernel))
  have text : addUtf8 "c/D" beforeRenaming = (5, (beforeRenaming.push (.utf8 "c/D")).2) :=
    sound_beforeRenaming.intern_of_fresh (by decide +kernel)
  have renamed : beforeRenaming.rename 4 "c/D" =
      .ok ((beforeRenaming.push (.utf8 "c/D")).2.replace 4 (.classRef 3) (.classRef 5)) := by
    rcases rename_cases beforeRenaming 4 "c/D" with ⟨old, found, renamed⟩ | ⟨refused, -⟩
    · have here : beforeRenaming.get 4 = .ok (.classRef 3) := by rfl
      obtain rfl : old = 3 := by
        rw [here] at found
        cases found
        rfl
      rw [renamed, text]
    · exact absurd rfl (refused 3)
  simp only [after, renamingRequests, List.foldl_cons, List.foldl_nil, Request.serve, Addition.add,
    number, added, renamed]

/-- The long number keeps its two slots, and the class has its new name. -/
theorem serves_renaming : ∃ bs, (empty.after renamingRequests).write = .ok bs ∧
    (∀ before r later, renamingRequests = before ++ r :: later → (empty.after before).Serves r) ∧
    (∀ before later, renamingRequests = before ++ later →
      ∀ index, (empty.after before).Reserved index → (empty.after before).Refuses index) ∧
    ∃ q, q.entries = (empty.after renamingRequests).entries ∧ ∀ pos, read.Takes pos bs q := by
  obtain ⟨bs, written⟩ : ∃ bs, (empty.after renamingRequests).write = .ok bs := by
    rw [after_renamingRequests]
    exact ⟨_, rfl⟩
  exact ⟨bs, written, serves_history (.inl rfl) written⟩

end Pool

end Weft
