import Mathlib.Data.List.Induction
import Weft.Proofs.Space.Acceptance

/-!
# Class spaces over histories

A space starts without classes and serves calls, each of which defines a class or is refused. The
handles that it gave tell what it holds: of each name the handle that was given last is the current
one, the handles of a name share a number and count its definitions, and names have numbers of their
own. In a space that makes new classes each call that is served defines a name that was not there
before. Generations are counted in 32 bits and numbers in 64.
-/

namespace Weft

namespace ClassSpace

/-- A call that defines the class in an image, from one who knows the handle `previous?` of it. -/
structure Call where
  image : Bytes
  previous? : Option Handle

/-- A space and the handles that it gave, in their order. -/
structure History where
  space : ClassSpace
  given : List Handle := []

namespace History

/-- What happened when the call was served or refused. -/
def serve (h : History) (call : Call) : History :=
  match define call.image call.previous? h.space with
  | .ok handle s => ⟨s, h.given ++ [handle]⟩
  | .error _ s => ⟨s, h.given⟩

/-- What happened in a space of the mode, which was without classes before. -/
def ofCalls (mode : DefineMode) (calls : List Call) : History :=
  calls.foldl serve { space := { mode } }

/-- The handles that a name was given. -/
def handlesOf (h : History) (name : ClassName) : List Handle :=
  h.given.filter (·.name = name)

variable {h h' : History} {handle : Handle} {used : Nat} {number : ClassName → Nat}

theorem mem_handlesOf {name : ClassName} :
    handle ∈ h.handlesOf name ↔ handle ∈ h.given ∧ handle.name = name := by
  simp [handlesOf]

/-! ## What a call leaves behind -/

/-- The handle was given, and its definition is held beside those of other names. -/
structure Grants (h : History) (handle : Handle) (h' : History) : Prop where
  given : h'.given = h.given ++ [handle]
  here : (h'.space.get? handle.name).map (·.handle) = some handle
  others : ∀ name, handle.name ≠ name → h'.space.get? name = h.space.get? name

/-- No class was changed. -/
structure Refuses (h h' : History) : Prop where
  given : h'.given = h.given
  classes : h'.space.classes = h.space.classes

theorem Grants.handlesOf (h₁ : h.Grants handle h') (name : ClassName) : h'.handlesOf name =
    if handle.name = name then h.handlesOf name ++ [handle] else h.handlesOf name := by
  unfold History.handlesOf
  rw [h₁.given, List.filter_append, List.filter_singleton]
  by_cases here : handle.name = name
  · simp [here]
  · simp [here]

/-! ## What handles tell -/

/-- The handles that were given tell what is held: `used` names were numbered, each with its own
`number`. -/
structure Numbered (h : History) (used : Nat) (number : ClassName → Nat) : Prop where
  next : h.space.nextId = UInt64.ofNat (used + 1)
  current : ∀ name, (h.space.get? name).map (·.handle) = (h.handlesOf name).getLast?
  counted : ∀ name i (handle : Handle), (h.handlesOf name)[i]? = some handle →
    handle = ⟨name, UInt32.ofNat i, UInt64.ofNat (number name)⟩
  numbers : ∀ handle ∈ h.given, 1 ≤ number handle.name ∧ number handle.name ≤ used
  apart : ∀ a ∈ h.given, ∀ b ∈ h.given, number a.name = number b.name → a.name = b.name

theorem numbered_empty (mode : DefineMode) :
    Numbered { space := { mode } } 0 fun _ => 0 where
  next := rfl
  current name := by
    show ((∅ : Std.HashMap ClassName Definition)[name]?).map (·.handle) = _
    rw [Std.HashMap.getElem?_empty]
    rfl
  counted name i handle found := by cases found
  numbers handle mem := nomatch mem
  apart a mem := nomatch mem

namespace Numbered

theorem id_eq (n : h.Numbered used number) (mem : handle ∈ h.given) :
    handle.id = UInt64.ofNat (number handle.name) := by
  obtain ⟨i, bound, found⟩ := List.mem_iff_getElem.1 (mem_handlesOf.2 ⟨mem, rfl⟩)
  rw [n.counted handle.name i handle (List.getElem?_eq_some_iff.2 ⟨bound, found⟩)]

theorem current_granted (n : h.Numbered used number) (granted : h.Grants handle h')
    (name : ClassName) : (h'.space.get? name).map (·.handle) = (h'.handlesOf name).getLast? := by
  rw [granted.handlesOf]
  split
  · rename_i here
    rw [← here, granted.here, List.getLast?_concat]
  · rename_i other
    rw [granted.others name other, n.current]

/-- The current handle of a name has the generation that its number of handles tells. -/
theorem last_eq (n : h.Numbered used number) {name : ClassName} {last : Handle}
    (defined : (h.handlesOf name).getLast? = some last) :
    last = ⟨name, UInt32.ofNat ((h.handlesOf name).length - 1), UInt64.ofNat (number name)⟩ := by
  rw [List.getLast?_eq_getElem?] at defined
  exact n.counted name _ last defined

/-- A handle that counts on from those of its name leaves all of them counted. -/
theorem counted_granted (n : h.Numbered used number) (granted : h.Grants handle h')
    {number' : ClassName → Nat} (kept : ∀ a ∈ h.given, number' a.name = number a.name)
    (counts : handle = ⟨handle.name, UInt32.ofNat (h.handlesOf handle.name).length,
      UInt64.ofNat (number' handle.name)⟩) (name : ClassName) (i : Nat) (a : Handle)
    (found : (h'.handlesOf name)[i]? = some a) :
    a = ⟨name, UInt32.ofNat i, UInt64.ofNat (number' name)⟩ := by
  have earlier (found : (h.handlesOf name)[i]? = some a) :
      a = ⟨name, UInt32.ofNat i, UInt64.ofNat (number' name)⟩ := by
    obtain ⟨mem, named⟩ := mem_handlesOf.1 (List.mem_of_getElem? found)
    have same := kept a mem
    rw [named] at same
    rw [same]
    exact n.counted name i a found
  rw [granted.handlesOf] at found
  split at found
  · rename_i here
    subst here
    rw [List.getElem?_append] at found
    split at found
    · exact earlier found
    · rename_i behind
      rw [List.getElem?_singleton] at found
      split at found
      · rename_i zero
        cases found
        obtain rfl : i = (h.handlesOf handle.name).length := by omega
        exact counts
      · cases found
  · exact earlier found

/-- A refused call may have used a number up. -/
theorem refused (n : h.Numbered used number) (refused : h.Refuses h')
    (next : h'.space.nextId = h.space.nextId ∨ h'.space.nextId = h.space.nextId + 1) :
    ∃ used' ≤ used + 1, h'.Numbered used' number := by
  have kept {used' : Nat} (le : used ≤ used')
      (numbered : h'.space.nextId = UInt64.ofNat (used' + 1)) : h'.Numbered used' number := by
    have same (name : ClassName) : h'.handlesOf name = h.handlesOf name := by
      unfold History.handlesOf
      rw [refused.given]
    constructor
    case next => exact numbered
    case current =>
      intro name
      rw [same, ← n.current]
      unfold get?
      rw [refused.classes]
    case counted => exact fun name i handle found => n.counted name i handle (same name ▸ found)
    case numbers =>
      intro handle mem
      have bounds := n.numbers handle (refused.given ▸ mem)
      exact ⟨bounds.1, Nat.le_trans bounds.2 le⟩
    case apart => exact fun a ha b hb => n.apart a (refused.given ▸ ha) b (refused.given ▸ hb)
  rcases next with same | more
  · exact ⟨used, Nat.le_succ used, kept (Nat.le_refl used) (same.trans n.next)⟩
  · refine ⟨used + 1, Nat.le_refl _, kept (Nat.le_succ used) (more.trans ?_)⟩
    rw [n.next]
    simp [UInt64.ofNat_add]

/-- A name that had no handle gets the next number. -/
theorem first (n : h.Numbered used number) (granted : h.Grants handle h')
    (fresh : h.handlesOf handle.name = []) (generation : handle.generation = 0)
    (id : handle.id = h.space.nextId) (next : h'.space.nextId = h.space.nextId + 1) :
    h'.Numbered (used + 1) (Function.update number handle.name (used + 1)) := by
  have old {a : Handle} (mem : a ∈ h.given) : a.name ≠ handle.name := by
    intro same
    have := mem_handlesOf.2 ⟨mem, same⟩
    rw [fresh] at this
    cases this
  have cases_given {a : Handle} (mem : a ∈ h'.given) : a ∈ h.given ∨ a = handle := by
    rw [granted.given] at mem
    simpa using mem
  constructor
  case next =>
    rw [next, n.next]
    simp [UInt64.ofNat_add]
  case current => exact n.current_granted granted
  case counted =>
    refine n.counted_granted granted (fun a mem => Function.update_of_ne (old mem) _ _) ?_
    obtain ⟨name, g, k⟩ := handle
    dsimp only at *
    rw [fresh, Function.update_self, generation, id, n.next]
    rfl
  case numbers =>
    intro a mem
    rcases cases_given mem with mem | rfl
    · rw [Function.update_of_ne (old mem)]
      have bounds := n.numbers a mem
      exact ⟨bounds.1, Nat.le_succ_of_le bounds.2⟩
    · rw [Function.update_self]
      exact ⟨Nat.le_add_left 1 used, Nat.le_refl _⟩
  case apart =>
    intro a ha b hb same
    rcases cases_given ha with ha | rfl <;> rcases cases_given hb with hb | rfl
    · rw [Function.update_of_ne (old ha), Function.update_of_ne (old hb)] at same
      exact n.apart a ha b hb same
    · rw [Function.update_of_ne (old ha), Function.update_self] at same
      have := (n.numbers a ha).2
      omega
    · rw [Function.update_of_ne (old hb), Function.update_self] at same
      have := (n.numbers b hb).2
      omega
    · rfl

/-- A name that has a handle keeps its number, and its generation is one more. -/
theorem again (n : h.Numbered used number) (granted : h.Grants handle h') {last : Handle}
    (defined : (h.handlesOf handle.name).getLast? = some last)
    (generation : handle.generation = last.generation + 1) (id : handle.id = last.id)
    (next : h'.space.nextId = h.space.nextId) : h'.Numbered used number := by
  obtain ⟨mem, named⟩ := mem_handlesOf.1 (List.mem_of_getLast? defined)
  have cases_given {a : Handle} (mem' : a ∈ h'.given) :
      ∃ b ∈ h.given, b.name = a.name := by
    rw [granted.given] at mem'
    rcases List.mem_append.1 mem' with mem' | mem'
    · exact ⟨a, mem', rfl⟩
    · rw [List.mem_singleton.1 mem']
      exact ⟨last, mem, named⟩
  constructor
  case next => exact next.trans n.next
  case current => exact n.current_granted granted
  case counted =>
    refine n.counted_granted granted (fun _ _ => rfl) ?_
    have some_handle : 0 < (h.handlesOf handle.name).length :=
      List.length_pos_of_mem (List.mem_of_getLast? defined)
    obtain ⟨k, length⟩ := Nat.exists_eq_add_one.2 some_handle
    have before := n.last_eq defined
    rw [length, Nat.add_sub_cancel] at before
    rw [before] at generation id
    obtain ⟨name, g, k'⟩ := handle
    dsimp only at *
    rw [length, generation, id, UInt32.ofNat_add]
    rfl
  case numbers =>
    intro a mem'
    obtain ⟨b, mem', same⟩ := cases_given mem'
    exact same ▸ n.numbers b mem'
  case apart =>
    intro a ha b hb same
    obtain ⟨a', ha', same_a⟩ := cases_given ha
    obtain ⟨b', hb', same_b⟩ := cases_given hb
    rw [← same_a, ← same_b] at same ⊢
    exact n.apart a' ha' b' hb' same

end Numbered

/-! ## Calls one by one -/

theorem serve_ok {call : Call} {s : ClassSpace}
    (served : define call.image call.previous? h.space = .ok handle s) :
    h.serve call = ⟨s, h.given ++ [handle]⟩ := by
  unfold serve
  rw [served]

theorem serve_error {call : Call} {s : ClassSpace} {e : Error}
    (refused : define call.image call.previous? h.space = .error e s) :
    h.serve call = ⟨s, h.given⟩ := by
  unfold serve
  rw [refused]

/-- The names that were given are those of new classes, each with the number of its handle. -/
def Made (h : History) : Prop :=
  ∀ handle ∈ h.given, ∃ base : ClassName, '.' ∉ base.internal.toList ∧
    handle.name = newName base handle.id

/-- As long as no number comes back, a new class has a name of its own. -/
theorem Numbered.fresh (n : h.Numbered used number) (made : h.Made) (few : used < 2 ^ 64)
    {base : ClassName} (dotless : '.' ∉ base.internal.toList) :
    ∀ a ∈ h.given, a.name ≠ newName base h.space.nextId ∧ a.id ≠ h.space.nextId := by
  intro a mem
  have other : a.id ≠ h.space.nextId := by
    intro same
    rw [n.id_eq mem, n.next] at same
    have numbers := congrArg UInt64.toNat same
    simp only [UInt64.toNat_ofNat'] at numbers
    have bounds := n.numbers a mem
    omega
  refine ⟨fun same => other ?_, other⟩
  obtain ⟨base', dotless', named⟩ := made a mem
  exact newName_inj dotless' dotless (named.symm.trans same)

theorem Made.serve (made : h.Made) (mode : h.space.mode = .newClass) (call : Call) :
    (h.serve call).Made := by
  cases served : define call.image call.previous? h.space with
  | error e s =>
    rw [serve_error served]
    exact made
  | ok handle s =>
    rw [serve_ok served]
    rw [define_newClass mode] at served
    obtain ⟨c, base, d, new, rfl, -⟩ := defineNew_eq_ok served
    intro a mem
    rcases List.mem_append.1 mem with mem | mem
    · exact made a mem
    · rw [List.mem_singleton.1 mem, new.handle]
      exact ⟨base, Pool.dotless_of_className new.named, rfl⟩

/-- The handles that were given in `n` calls tell what the space holds. -/
structure Tracks (h : History) (n : Nat) : Prop where
  /-- The current handle of a name is the one that it was given last. -/
  current : ∀ name, (h.space.get? name).map (·.handle) = (h.handlesOf name).getLast?
  /-- The first handle of a name has generation zero, and each one more than that before it. -/
  generation : ∀ name i (handle : Handle), (h.handlesOf name)[i]? = some handle →
    handle.generation = UInt32.ofNat i
  id : ∀ a ∈ h.given, ∀ b ∈ h.given, a.name = b.name → a.id = b.id
  apart : n < 2 ^ 64 → ∀ a ∈ h.given, ∀ b ∈ h.given, a.name ≠ b.name → a.id ≠ b.id

theorem Numbered.tracks (n : h.Numbered used number) {calls : Nat} (le : used ≤ calls) :
    h.Tracks calls where
  current := n.current
  generation name i handle found := by rw [n.counted name i handle found]
  id a ha b hb same := by rw [n.id_eq ha, n.id_eq hb, same]
  apart few a ha b hb other same := by
    rw [n.id_eq ha, n.id_eq hb] at same
    have numbers := congrArg UInt64.toNat same
    simp only [UInt64.toNat_ofNat'] at numbers
    have bound := n.numbers a ha
    have bound' := n.numbers b hb
    exact other (n.apart a ha b hb (by omega))

end History

end ClassSpace

end Weft
