import Weft.ClassFile.Attribute
import Weft.Proofs.Steps

/-!
# Growing pools

Constants are only ever added at the end of a pool, so that every index keeps its constant. A sound
pool holds usable constants, each wide one before an unusable slot, and remembers only indices at
which they stand; what is added keeps it sound.
-/

namespace Weft

namespace Pool

/-- The constants of the first pool are the first constants of the second. -/
def Extends (p q : Pool) : Prop := p.entries.toList <+: q.entries.toList

namespace Extends

variable {p q r : Pool}

theorem refl (p : Pool) : p.Extends p := List.prefix_refl _

theorem of_entries (same : q.entries = p.entries) : p.Extends q := by
  show p.entries.toList <+: q.entries.toList
  exact same ▸ List.prefix_refl _

theorem trans (h : p.Extends q) (h' : q.Extends r) : p.Extends r := List.IsPrefix.trans h h'

theorem size_le (h : p.Extends q) : p.size ≤ q.size := by
  have := h.length_le
  simpa [size] using this

theorem entries_eq (h : p.Extends q) {n : Nat} (bound : n < p.size) :
    q.entries[n]? = p.entries[n]? := by
  obtain ⟨more, joined⟩ := h
  rw [← Array.getElem?_toList, ← Array.getElem?_toList, ← joined,
    List.getElem?_append_left (by simpa [size] using bound)]

end Extends

theorem extends_push (c : Constant) (p : Pool) : p.Extends (p.push c).2 := by
  unfold Extends push
  split
  · simp
  · simp

/-! ## Sound pools -/

/-- The slots that constants take. -/
def slots (cs : List Constant) : List Constant :=
  cs.flatMap fun c => if c.isWide then [c, .unusable] else [c]

/-- The pool has the constant at the index, as sixteen bits hold it. -/
def Holds (p : Pool) (index : UInt16) (c : Constant) : Prop :=
  ∃ n, p.entries[n]? = some c ∧ index = UInt16.ofNat n

/-- Where the pool remembers a constant, the constant stands. -/
def Remembers (p : Pool) : Prop := ∀ c index, p.lookup[c]? = some index → p.Holds index c

/-- The pool is made of usable constants, and remembers where they stand. -/
structure Sound (p : Pool) : Prop where
  laid : ∃ cs, p.entries.toList = .unusable :: slots cs ∧ ∀ c ∈ cs, c ≠ .unusable
  known : ∀ c index, p.lookup[c]? = some index → p.Holds index c
  /-- Of the places of a constant the first is remembered. -/
  first : ∀ c ∈ p.entries.toList, c ≠ .unusable →
    p.lookup[c]? = some (UInt16.ofNat (p.entries.toList.idxOf c))

theorem slots_append (cs ds : List Constant) : slots (cs ++ ds) = slots cs ++ slots ds :=
  List.flatMap_append

theorem slots_singleton (c : Constant) :
    slots [c] = if c.isWide then [c, .unusable] else [c] := by simp [slots]

theorem Holds.mono {p q : Pool} {index : UInt16} {c : Constant} (h : p.Holds index c)
    (grown : p.Extends q) : q.Holds index c := by
  obtain ⟨n, at_n, rfl⟩ := h
  obtain ⟨bound, -⟩ := Array.getElem?_eq_some_iff.1 at_n
  exact ⟨n, by rwa [grown.entries_eq bound], rfl⟩

/-- In a pool that can be written an index says where its constant stands. -/
theorem Holds.getElem? {p : Pool} {index : UInt16} {c : Constant} (h : p.Holds index c)
    (small : p.size ≤ 65536) : p.entries[index.toNat]? = some c := by
  obtain ⟨n, at_n, rfl⟩ := h
  obtain ⟨bound, -⟩ := Array.getElem?_eq_some_iff.1 at_n
  unfold size at small
  rwa [UInt16.toNat_ofNat_of_lt' (show n < 65536 by omega)]

theorem Holds.utf8 {p : Pool} {index : UInt16} {text : String} (h : p.Holds index (.utf8 text))
    (small : p.size ≤ 65536) : p.utf8 index = .ok text := by
  have found : p.get index = .ok (.utf8 text) := by
    rw [get, h.getElem? small]
  rw [Pool.utf8, found]
  rfl

theorem get_eq_ok {p : Pool} {index : UInt16} {c : Constant} (h : p.get index = .ok c) :
    p.entries[index.toNat]? = some c ∧ c ≠ .unusable := by
  unfold get at h
  split at h
  · cases h
  · cases h
  · rename_i found usable
    cases h
    exact ⟨usable, fun unusable => by simp_all⟩

theorem utf8_eq_ok {p : Pool} {index : UInt16} {text : String} (h : p.utf8 index = .ok text) :
    p.get index = .ok (.utf8 text) := by
  obtain ⟨c, found, h⟩ := except_bind_eq_ok.1 h
  split at h
  · cases h
    exact found
  · cases h

theorem get_of_getElem? {p : Pool} {index : UInt16} {c : Constant}
    (h : p.entries[index.toNat]? = some c) (usable : c ≠ .unusable) : p.get index = .ok c := by
  unfold get
  rw [h]
  split
  · rename_i unusable
    cases unusable
    exact absurd rfl usable
  · rename_i none
    cases none
  · rename_i found
    cases found
    rfl

theorem Holds.get {p : Pool} {index : UInt16} {c : Constant} (h : p.Holds index c)
    (usable : c ≠ .unusable) (small : p.size ≤ 65536) : p.get index = .ok c :=
  get_of_getElem? (h.getElem? small) usable

/-! What is found in a pool is found in each pool that extends it. -/

section Mono

variable {p q : Pool} {index : UInt16}

theorem get_mono (grown : p.Extends q) {c : Constant} (h : p.get index = .ok c) :
    q.get index = .ok c := by
  obtain ⟨found, usable⟩ := get_eq_ok h
  obtain ⟨bound, -⟩ := Array.getElem?_eq_some_iff.1 found
  exact get_of_getElem? ((grown.entries_eq bound).trans found) usable

theorem utf8_mono (grown : p.Extends q) {text : String} (h : p.utf8 index = .ok text) :
    q.utf8 index = .ok text := by
  rw [Pool.utf8, get_mono grown (utf8_eq_ok h)]
  rfl

theorem className_mono (grown : p.Extends q) {name : ClassName}
    (h : p.className index = .ok name) : q.className index = .ok name := by
  obtain ⟨c, found, h⟩ := except_bind_eq_ok.1 h
  refine except_bind_eq_ok.2 ⟨c, get_mono grown found, ?_⟩
  split at h
  · obtain ⟨text, named, h⟩ := except_bind_eq_ok.1 h
    exact except_bind_eq_ok.2 ⟨text, utf8_mono grown named, h⟩
  · cases h

theorem nameAndType_mono (grown : p.Extends q) {pair : String × String}
    (h : p.nameAndType index = .ok pair) : q.nameAndType index = .ok pair := by
  obtain ⟨c, found, h⟩ := except_bind_eq_ok.1 h
  refine except_bind_eq_ok.2 ⟨c, get_mono grown found, ?_⟩
  split at h
  · obtain ⟨name, named, h⟩ := except_bind_eq_ok.1 h
    obtain ⟨descriptor, typed, h⟩ := except_bind_eq_ok.1 h
    exact except_bind_eq_ok.2 ⟨name, utf8_mono grown named,
      except_bind_eq_ok.2 ⟨descriptor, utf8_mono grown typed, h⟩⟩
  · cases h

theorem resolve_mono (grown : p.Extends q) {owner nat : UInt16} {isInterface : Bool}
    {m : MemberRef} (h : memberRef.resolve p owner nat isInterface = .ok m) :
    memberRef.resolve q owner nat isInterface = .ok m := by
  obtain ⟨pair, typed, h⟩ := except_bind_eq_ok.1 h
  obtain ⟨name, named, h⟩ := except_bind_eq_ok.1 h
  exact except_bind_eq_ok.2 ⟨pair, nameAndType_mono grown typed,
    except_bind_eq_ok.2 ⟨name, className_mono grown named, h⟩⟩

theorem memberRef_mono (grown : p.Extends q) {m : MemberRef} (h : p.memberRef index = .ok m) :
    q.memberRef index = .ok m := by
  obtain ⟨c, found, h⟩ := except_bind_eq_ok.1 h
  refine except_bind_eq_ok.2 ⟨c, get_mono grown found, ?_⟩
  split at h
  · exact resolve_mono grown h
  · exact resolve_mono grown h
  · exact resolve_mono grown h
  · cases h

end Mono

theorem holds_of_utf8 {p : Pool} {index : UInt16} {text : String} (h : p.utf8 index = .ok text) :
    p.Holds index (.utf8 text) :=
  ⟨index.toNat, (get_eq_ok (utf8_eq_ok h)).1, (UInt16.ofNat_toNat).symm⟩

theorem sound_empty : Sound empty where
  laid := ⟨[], rfl, by simp⟩
  known c index h := by simp [empty] at h
  first c mem usable := absurd (List.mem_singleton.1 mem) usable

theorem entries_push (c : Constant) (p : Pool) :
    (p.push c).2.entries.toList = p.entries.toList ++ slots [c] := by
  rw [push, slots_singleton]
  split <;> simp

theorem holds_push (c : Constant) (p : Pool) : (p.push c).2.Holds (p.push c).1 c := by
  refine ⟨p.entries.size, ?_, rfl⟩
  rw [← Array.getElem?_toList, entries_push, slots_singleton,
    List.getElem?_append_right (by simp)]
  split <;> simp

theorem Remembers.push {p : Pool} (h : p.Remembers) (c : Constant) : (p.push c).2.Remembers := by
  intro d index hd
  have found : (p.lookup.insertIfNew c (UInt16.ofNat p.entries.size))[d]? = some index := hd
  rw [Std.HashMap.getElem?_insertIfNew] at found
  split at found
  · rename_i same
    cases found
    obtain rfl : c = d := by simpa using same.1
    exact holds_push c p
  · exact (h d index found).mono (p.extends_push c)

theorem Sound.push {p : Pool} (h : p.Sound) {c : Constant} (usable : c ≠ .unusable) :
    (p.push c).2.Sound where
  laid := by
    obtain ⟨cs, laid, all⟩ := h.laid
    refine ⟨cs ++ [c], ?_, ?_⟩
    · rw [entries_push, laid, slots_append]
      rfl
    · intro d hd
      rcases List.mem_append.1 hd with hd | hd
      · exact all d hd
      · rwa [List.mem_singleton.1 hd]
  known := Remembers.push h.known c
  first d mem some := by
    show (p.lookup.insertIfNew c (UInt16.ofNat p.entries.size))[d]? = _
    rw [entries_push, List.mem_append] at mem
    rw [Std.HashMap.getElem?_insertIfNew, entries_push]
    by_cases old : d ∈ p.entries.toList
    · have known := h.first d old some
      have remembered : ¬((c == d) = true ∧ c ∉ p.lookup) := by
        rintro ⟨same, fresh⟩
        obtain rfl := eq_of_beq same
        rw [Std.HashMap.getElem?_eq_none fresh] at known
        cases known
      rw [if_neg remembered, known, List.idxOf_append_of_mem old]
    · have new := mem.resolve_left old
      have here : d = c := by
        rw [slots_singleton] at new
        split at new
        · simpa [some] using new
        · simpa using new
      subst here
      have fresh : d ∉ p.lookup := fun known => by
        obtain ⟨n, at_n, -⟩ := h.known d _ (Std.HashMap.getElem?_eq_some_getElem known)
        exact old (List.mem_of_getElem? (Array.getElem?_toList ▸ at_n))
      have place : (slots [d]).idxOf d = 0 := by
        rw [slots_singleton]
        split <;> simp
      rw [if_pos ⟨beq_self_eq_true d, fresh⟩, List.idxOf_append_of_notMem old, place]
      rfl

/-- What a pool remembers of a constant is remembered with more constants. -/
theorem Sound.lookup_mono {p q : Pool} (h : p.Sound) (h' : q.Sound) (grown : p.Extends q)
    {c : Constant} (usable : c ≠ .unusable) {index : UInt16} (known : p.lookup[c]? = some index) :
    q.lookup[c]? = some index := by
  obtain ⟨n, at_n, -⟩ := h.known c index known
  have mem : c ∈ p.entries.toList := List.mem_of_getElem? (Array.getElem?_toList ▸ at_n)
  have later : c ∈ q.entries.toList := List.IsPrefix.subset grown mem
  have place : q.entries.toList.idxOf c = p.entries.toList.idxOf c := by
    obtain ⟨more, joined⟩ := grown
    rw [← joined, List.idxOf_append_of_mem mem]
  rw [h'.first c later usable, place, ← h.first c mem usable, known]

theorem Remembers.intern {p : Pool} (h : p.Remembers) (c : Constant) :
    (intern c p).2.Remembers ∧ (intern c p).2.Holds (intern c p).1 c := by
  unfold Pool.intern
  split
  · rename_i index known
    exact ⟨h, h c index known⟩
  · exact ⟨h.push c, holds_push c p⟩

theorem Sound.intern {p : Pool} (h : p.Sound) {c : Constant} (usable : c ≠ .unusable) :
    (intern c p).2.Sound ∧ (intern c p).2.Holds (intern c p).1 c := by
  refine ⟨?_, (Remembers.intern h.known c).2⟩
  unfold Pool.intern
  split
  · exact h
  · exact h.push usable

/-- What is interned is remembered where it was put. -/
theorem lookup_intern (c : Constant) (p : Pool) :
    (Pool.intern c p).2.lookup[c]? = some (Pool.intern c p).1 := by
  unfold Pool.intern
  split
  · assumption
  · rename_i fresh
    show (p.lookup.insertIfNew c (UInt16.ofNat p.entries.size))[c]? = _
    have new : c ∉ p.lookup := by
      rwa [Std.HashMap.mem_iff_isSome_getElem?, Option.not_isSome_iff_eq_none]
    rw [Std.HashMap.getElem?_insertIfNew, if_pos ⟨beq_self_eq_true c, new⟩]
    rfl

theorem Sound.intern_of_fresh {p : Pool} (h : p.Sound) {c : Constant} {index : UInt16}
    (fresh : c ∉ p.entries.toList ∧ UInt16.ofNat p.size = index) :
    Pool.intern c p = (index, (p.push c).2) := by
  unfold Pool.intern
  cases known : p.lookup[c]? with
  | none => exact Prod.ext fresh.2 rfl
  | some index =>
    obtain ⟨n, held, -⟩ := h.known c index known
    exact absurd (List.mem_of_getElem? (Array.getElem?_toList ▸ held)) fresh.1

theorem Sound.intern_of_known {p : Pool} (h : p.Sound) {c : Constant} {index : UInt16}
    (known : c ∈ p.entries.toList ∧ c ≠ .unusable ∧
      UInt16.ofNat (p.entries.toList.idxOf c) = index) : Pool.intern c p = (index, p) := by
  obtain ⟨mem, usable, rfl⟩ := known
  rw [Pool.intern, h.first c mem usable]

/-- The second pool is the first with more constants, and sound if the first is. -/
structure GrowsTo (p q : Pool) : Prop where
  keeps : p.Extends q
  sound : p.Sound → q.Sound

namespace GrowsTo

variable {p q r : Pool}

theorem refl (p : Pool) : p.GrowsTo p := ⟨.refl p, id⟩

theorem trans (h : p.GrowsTo q) (h' : q.GrowsTo r) : p.GrowsTo r :=
  ⟨h.keeps.trans h'.keeps, h'.sound ∘ h.sound⟩

end GrowsTo

end Pool

/-! ## Steps that grow a pool -/

section Growth

variable {α β : Type}

/-- A change of a pool that only adds constants. -/
def Grows (x : StateM Pool α) : Prop := ∀ p : Pool, p.GrowsTo (x p).2

namespace Grows

theorem pure (a : α) : Grows (Pure.pure a : StateM Pool α) := fun p => .refl p

theorem bind {x : StateM Pool α} {f : α → StateM Pool β} (h : Grows x) (h' : ∀ a, Grows (f a)) :
    Grows (x >>= f) := fun p => (h p).trans (h' (x p).1 (x p).2)

theorem map {x : StateM Pool α} {f : α → β} (h : Grows x) : Grows (do return f (← x)) :=
  h.bind fun a => pure (f a)

theorem made {x : StateM Pool α} (h : Grows x) {p q : Pool} {a : α} (same : x p = (a, q)) :
    p.GrowsTo q := by
  have grown := h p
  rwa [same] at grown

end Grows

namespace Pool

theorem grows_intern {c : Constant} (usable : c ≠ .unusable) : Grows (intern c) := by
  refine fun p => ⟨?_, fun sound => (sound.intern usable).1⟩
  unfold intern
  split
  · exact .refl p
  · exact p.extends_push c

theorem grows_addUtf8 (text : String) : Grows (addUtf8 text) := grows_intern (by simp)

theorem grows_addClass (name : String) : Grows (addClass name) :=
  (grows_addUtf8 name).bind fun _ => grows_intern (by simp)

theorem grows_addString (text : String) : Grows (addString text) :=
  (grows_addUtf8 text).bind fun _ => grows_intern (by simp)

theorem grows_addLiteral (v : Literal) : Grows (addLiteral v) := by
  cases v with
  | string text => exact grows_addString text
  | _ => exact grows_intern (by simp)

theorem grows_addNameAndType (name descriptor : String) :
    Grows (addNameAndType name descriptor) :=
  (grows_addUtf8 name).bind fun _ => (grows_addUtf8 descriptor).bind fun _ => grows_intern (by simp)

theorem grows_addFieldRef (owner name descriptor : String) :
    Grows (addFieldRef owner name descriptor) :=
  (grows_addClass owner).bind fun _ =>
    (grows_addNameAndType name descriptor).bind fun _ => grows_intern (by simp)

theorem grows_addMethodRef (owner name descriptor : String) (isInterface : Bool) :
    Grows (addMethodRef owner name descriptor isInterface) :=
  (grows_addClass owner).bind fun _ =>
    (grows_addNameAndType name descriptor).bind fun _ => grows_intern (by split <;> simp)

/-! What a pool has at an index, with the constants that the constant there refers to. -/

/-- The pool has a class of that name. -/
def HoldsClass (p : Pool) (index : UInt16) (name : String) : Prop :=
  ∃ text, p.Holds index (.classRef text) ∧ p.Holds text (.utf8 name)

/-- The pool has a string. -/
def HoldsString (p : Pool) (index : UInt16) (s : String) : Prop :=
  ∃ text, p.Holds index (.string text) ∧ p.Holds text (.utf8 s)

/-- The pool has a literal. -/
def HoldsLiteral (p : Pool) (index : UInt16) : Literal → Prop
  | .int v => p.Holds index (.integer v)
  | .long v => p.Holds index (.long v)
  | .float bits => p.Holds index (.float bits)
  | .double bits => p.Holds index (.double bits)
  | .string text => p.HoldsString index text

/-- The pool has a name with a descriptor. -/
def HoldsNameAndType (p : Pool) (index : UInt16) (name descriptor : String) : Prop :=
  ∃ m n, p.Holds index (.nameAndType m n) ∧ p.Holds m (.utf8 name) ∧ p.Holds n (.utf8 descriptor)

/-- The pool has a field of a class. -/
def HoldsField (p : Pool) (index : UInt16) (owner name descriptor : String) : Prop :=
  ∃ c nat, p.Holds index (.fieldRef c nat) ∧ p.HoldsClass c owner ∧
    p.HoldsNameAndType nat name descriptor

/-- The pool has a method of a class, or of an interface. -/
def HoldsMethod (p : Pool) (index : UInt16) (owner name descriptor : String) (isInterface : Bool) :
    Prop :=
  ∃ c nat, p.Holds index (if isInterface then .interfaceMethodRef c nat else .methodRef c nat) ∧
    p.HoldsClass c owner ∧ p.HoldsNameAndType nat name descriptor

section Holds

variable {p q : Pool} {index : UInt16}

theorem HoldsClass.mono {name : String} (h : p.HoldsClass index name) (grown : p.Extends q) :
    q.HoldsClass index name := by
  obtain ⟨text, found, named⟩ := h
  exact ⟨text, found.mono grown, named.mono grown⟩

theorem HoldsString.mono {s : String} (h : p.HoldsString index s) (grown : p.Extends q) :
    q.HoldsString index s := by
  obtain ⟨text, found, named⟩ := h
  exact ⟨text, found.mono grown, named.mono grown⟩

theorem HoldsLiteral.mono {v : Literal} (h : p.HoldsLiteral index v) (grown : p.Extends q) :
    q.HoldsLiteral index v := by
  cases v with
  | string text => exact HoldsString.mono h grown
  | _ => exact Holds.mono h grown

theorem HoldsNameAndType.mono {name descriptor : String}
    (h : p.HoldsNameAndType index name descriptor) (grown : p.Extends q) :
    q.HoldsNameAndType index name descriptor := by
  obtain ⟨m, n, found, named, typed⟩ := h
  exact ⟨m, n, found.mono grown, named.mono grown, typed.mono grown⟩

theorem HoldsField.mono {owner name descriptor : String}
    (h : p.HoldsField index owner name descriptor) (grown : p.Extends q) :
    q.HoldsField index owner name descriptor := by
  obtain ⟨c, nat, found, owned, typed⟩ := h
  exact ⟨c, nat, found.mono grown, owned.mono grown, typed.mono grown⟩

theorem HoldsMethod.mono {owner name descriptor : String} {isInterface : Bool}
    (h : p.HoldsMethod index owner name descriptor isInterface) (grown : p.Extends q) :
    q.HoldsMethod index owner name descriptor isInterface := by
  obtain ⟨c, nat, found, owned, typed⟩ := h
  exact ⟨c, nat, found.mono grown, owned.mono grown, typed.mono grown⟩

/-! In a pool that can be written an index resolves to what the pool has there. -/

theorem HoldsClass.className {name : String} (h : p.HoldsClass index name)
    (small : p.size ≤ 65536) : p.className index = .ok (.ofText name) := by
  obtain ⟨text, held, named⟩ := h
  have found : p.get index = .ok (.classRef text) := held.get (by simp) small
  exact except_bind_eq_ok.2 ⟨_, found, except_bind_eq_ok.2 ⟨name, named.utf8 small, rfl⟩⟩

theorem HoldsLiteral.literal {v : Literal} (h : p.HoldsLiteral index v) (small : p.size ≤ 65536) :
    p.literal index = .ok v := by
  have found {c : Constant} (held : p.Holds index c) (usable : c ≠ .unusable) :
      p.get index = .ok c := held.get usable small
  cases v with
  | int v => exact except_bind_eq_ok.2 ⟨_, found h (by simp), rfl⟩
  | long v => exact except_bind_eq_ok.2 ⟨_, found h (by simp), rfl⟩
  | float bits => exact except_bind_eq_ok.2 ⟨_, found h (by simp), rfl⟩
  | double bits => exact except_bind_eq_ok.2 ⟨_, found h (by simp), rfl⟩
  | string text =>
    obtain ⟨t, held, named⟩ := h
    refine except_bind_eq_ok.2 ⟨_, found held (by simp), ?_⟩
    exact except_bind_eq_ok.2 ⟨text, named.utf8 small, rfl⟩

theorem HoldsNameAndType.nameAndType {name descriptor : String}
    (h : p.HoldsNameAndType index name descriptor) (small : p.size ≤ 65536) :
    p.nameAndType index = .ok (name, descriptor) := by
  obtain ⟨m, n, held, named, typed⟩ := h
  refine except_bind_eq_ok.2 ⟨_, held.get (by simp) small, ?_⟩
  refine except_bind_eq_ok.2 ⟨name, named.utf8 small, ?_⟩
  exact except_bind_eq_ok.2 ⟨descriptor, typed.utf8 small, rfl⟩

theorem HoldsClass.resolve {owner nat : UInt16} {ownerName name descriptor : String}
    {isInterface : Bool} (owned : p.HoldsClass owner ownerName)
    (typed : p.HoldsNameAndType nat name descriptor) (small : p.size ≤ 65536) :
    memberRef.resolve p owner nat isInterface =
      .ok ⟨.ofText ownerName, name, descriptor, isInterface⟩ := by
  refine except_bind_eq_ok.2 ⟨(name, descriptor), typed.nameAndType small, ?_⟩
  exact except_bind_eq_ok.2 ⟨.ofText ownerName, owned.className small, rfl⟩

theorem HoldsField.memberRef {owner name descriptor : String}
    (h : p.HoldsField index owner name descriptor) (small : p.size ≤ 65536) :
    p.memberRef index = .ok ⟨.ofText owner, name, descriptor, false⟩ := by
  obtain ⟨c, nat, held, owned, typed⟩ := h
  exact except_bind_eq_ok.2 ⟨_, held.get (by simp) small, owned.resolve typed small⟩

theorem HoldsMethod.memberRef {owner name descriptor : String} {isInterface : Bool}
    (h : p.HoldsMethod index owner name descriptor isInterface) (small : p.size ≤ 65536) :
    p.memberRef index = .ok ⟨.ofText owner, name, descriptor, isInterface⟩ := by
  obtain ⟨c, nat, held, owned, typed⟩ := h
  cases isInterface with
  | false => exact except_bind_eq_ok.2 ⟨_, held.get (by simp) small, owned.resolve typed small⟩
  | true => exact except_bind_eq_ok.2 ⟨_, held.get (by simp) small, owned.resolve typed small⟩

end Holds

/-! ## What is added stands where the answer says -/

/-- The second pool is the first with usable constants behind its own. -/
def Continued (p q : Pool) : Prop :=
  ∃ cs, q.entries.toList = p.entries.toList ++ slots cs ∧ ∀ c ∈ cs, c ≠ .unusable

namespace Continued

variable {p q r : Pool}

theorem refl (p : Pool) : p.Continued p := ⟨[], by simp [slots], by simp⟩

theorem trans (h : p.Continued q) (h' : q.Continued r) : p.Continued r := by
  obtain ⟨cs, first, usable⟩ := h
  obtain ⟨ds, second, usable'⟩ := h'
  refine ⟨cs ++ ds, ?_, ?_⟩
  · rw [second, first, slots_append, List.append_assoc]
  · intro c mem
    exact (List.mem_append.1 mem).elim (usable c) (usable' c)

theorem keeps (h : p.Continued q) : p.Extends q := by
  obtain ⟨cs, added, -⟩ := h
  exact ⟨slots cs, added.symm⟩

end Continued

/-- From a pool that remembers rightly the step comes to another such pool, with constants added at
the end. In it, as in each pool that extends it, the answer has the property. -/
structure Places (x : StateM Pool α) (P : Pool → α → Prop) : Prop where
  continued : ∀ p : Pool, p.Continued (x p).2
  remembers : ∀ p : Pool, p.Remembers → (x p).2.Remembers
  placed : ∀ p : Pool, p.Remembers → ∀ q, (x p).2.Extends q → P q (x p).1

namespace Places

variable {x : StateM Pool α} {P : Pool → α → Prop}

theorem imp {Q : Pool → α → Prop} (h : Places x P) (le : ∀ p a, P p a → Q p a) : Places x Q where
  continued := h.continued
  remembers := h.remembers
  placed p known q grown := le q _ (h.placed p known q grown)

theorem bind {f : α → StateM Pool β} {Q : α → Pool → β → Prop} (h : Places x P)
    (h' : ∀ a, Places (f a) (Q a)) : Places (x >>= f) fun p b => ∃ a, P p a ∧ Q a p b where
  continued p := (h.continued p).trans ((h' _).continued _)
  remembers p known := (h' _).remembers _ (h.remembers p known)
  placed p known q grown := by
    have known₁ := h.remembers p known
    have later := ((h' (x p).1).continued (x p).2).keeps
    exact ⟨(x p).1, h.placed p known q (later.trans grown), (h' _).placed _ known₁ q grown⟩

end Places

theorem places_intern {c : Constant} (usable : c ≠ .unusable) :
    Places (intern c) fun p index => p.Holds index c where
  continued p := by
    unfold intern
    split
    · exact .refl p
    · exact ⟨[c], entries_push c p, fun d mem => List.mem_singleton.1 mem ▸ usable⟩
  remembers p known := (known.intern c).1
  placed p known q grown := (known.intern c).2.mono grown

theorem places_addUtf8 (text : String) :
    Places (addUtf8 text) fun p index => p.Holds index (.utf8 text) := places_intern (by simp)

theorem places_addClass (name : String) :
    Places (addClass name) fun p index => p.HoldsClass index name := by
  refine ((places_addUtf8 name).bind fun text => places_intern (c := .classRef text) (by simp)).imp ?_
  rintro p index ⟨text, named, held⟩
  exact ⟨text, held, named⟩

theorem places_addString (text : String) :
    Places (addString text) fun p index => p.HoldsString index text := by
  refine ((places_addUtf8 text).bind fun t => places_intern (c := .string t) (by simp)).imp ?_
  rintro p index ⟨t, named, held⟩
  exact ⟨t, held, named⟩

theorem places_addLiteral (v : Literal) :
    Places (addLiteral v) fun p index => p.HoldsLiteral index v := by
  cases v with
  | string text => exact places_addString text
  | _ => exact places_intern (by simp)

theorem places_addNameAndType (name descriptor : String) :
    Places (addNameAndType name descriptor) fun p index =>
      p.HoldsNameAndType index name descriptor := by
  refine ((places_addUtf8 name).bind fun m => (places_addUtf8 descriptor).bind fun n =>
    places_intern (c := .nameAndType m n) (by simp)).imp ?_
  rintro p index ⟨m, named, n, typed, held⟩
  exact ⟨m, n, held, named, typed⟩

theorem places_addFieldRef (owner name descriptor : String) :
    Places (addFieldRef owner name descriptor) fun p index =>
      p.HoldsField index owner name descriptor := by
  refine ((places_addClass owner).bind fun c => (places_addNameAndType name descriptor).bind
    fun nat => places_intern (c := .fieldRef c nat) (by simp)).imp ?_
  rintro p index ⟨c, owned, nat, typed, held⟩
  exact ⟨c, nat, held, owned, typed⟩

theorem places_addMethodRef (owner name descriptor : String) (isInterface : Bool) :
    Places (addMethodRef owner name descriptor isInterface) fun p index =>
      p.HoldsMethod index owner name descriptor isInterface := by
  refine ((places_addClass owner).bind fun c => (places_addNameAndType name descriptor).bind
    fun nat => places_intern (c := if isInterface then .interfaceMethodRef c nat
      else .methodRef c nat) (by split <;> simp)).imp ?_
  rintro p index ⟨c, owned, nat, typed, held⟩
  exact ⟨c, nat, held, owned, typed⟩

section Sound

variable {p : Pool}

theorem Places.holds {x : StateM Pool α} {P : Pool → α → Prop} (h : Places x P) (sound : p.Sound) :
    P (x p).2 (x p).1 := h.placed p sound.known _ (.refl _)

theorem holds_addUtf8 (sound : p.Sound) (text : String) :
    (addUtf8 text p).2.Holds (addUtf8 text p).1 (.utf8 text) := (places_addUtf8 text).holds sound

theorem holds_addClass (sound : p.Sound) (name : String) :
    (addClass name p).2.HoldsClass (addClass name p).1 name := (places_addClass name).holds sound

theorem holds_addString (sound : p.Sound) (text : String) :
    (addString text p).2.HoldsString (addString text p).1 text :=
  (places_addString text).holds sound

theorem holds_addFieldRef (sound : p.Sound) (owner name descriptor : String) :
    (addFieldRef owner name descriptor p).2.HoldsField (addFieldRef owner name descriptor p).1
      owner name descriptor := (places_addFieldRef owner name descriptor).holds sound

theorem holds_addMethodRef (sound : p.Sound) (owner name descriptor : String)
    (isInterface : Bool) :
    (addMethodRef owner name descriptor isInterface p).2.HoldsMethod
      (addMethodRef owner name descriptor isInterface p).1 owner name descriptor isInterface :=
  (places_addMethodRef owner name descriptor isInterface).holds sound

end Sound

end Pool

theorem Attribute.grows_named (name : String) (body : AttributeBody) : Grows (named name body) :=
  (Pool.grows_addUtf8 name).map

/-- A change of a pool that adds at most `n` slots. -/
def AddsAtMost (n : Nat) (x : StateM Pool α) : Prop := ∀ p : Pool, (x p).2.size ≤ p.size + n

namespace AddsAtMost

variable {n m : Nat} {x : StateM Pool α}

theorem bind {f : α → StateM Pool β} (h : AddsAtMost n x) (h' : ∀ a, AddsAtMost m (f a)) :
    AddsAtMost (n + m) (x >>= f) := by
  intro p
  have first := h p
  have second : (f (x p).1 (x p).2).2.size ≤ (x p).2.size + m := h' (x p).1 (x p).2
  have whole : ((x >>= f) p).2.size = (f (x p).1 (x p).2).2.size := rfl
  omega

theorem mono (h : AddsAtMost n x) (le : n ≤ m) : AddsAtMost m x := fun p =>
  Nat.le_trans (h p) (Nat.add_le_add_left le _)

end AddsAtMost

namespace Pool

theorem intern_adds {c : Constant} (narrow : c.isWide = false) : AddsAtMost 1 (intern c) := by
  intro p
  unfold intern
  split
  · exact Nat.le_succ _
  · simp [push, narrow, size]

theorem intern_adds_two (c : Constant) : AddsAtMost 2 (intern c) := by
  intro p
  unfold intern
  split
  · exact Nat.le_add_right _ _
  · unfold push size
    split <;> simp

theorem addUtf8_adds (text : String) : AddsAtMost 1 (addUtf8 text) := intern_adds rfl

theorem addClass_adds (name : String) : AddsAtMost 2 (addClass name) :=
  .bind (m := 1) (addUtf8_adds name) fun _ => intern_adds rfl

theorem addString_adds (text : String) : AddsAtMost 2 (addString text) :=
  .bind (m := 1) (addUtf8_adds text) fun _ => intern_adds rfl

theorem addNameAndType_adds (name descriptor : String) :
    AddsAtMost 3 (addNameAndType name descriptor) :=
  .bind (m := 2) (addUtf8_adds name) fun _ =>
    .bind (m := 1) (addUtf8_adds descriptor) fun _ => intern_adds rfl

theorem addFieldRef_adds (owner name descriptor : String) :
    AddsAtMost 6 (addFieldRef owner name descriptor) :=
  .bind (m := 4) (addClass_adds owner) fun _ =>
    .bind (m := 1) (addNameAndType_adds name descriptor) fun _ => intern_adds rfl

theorem addMethodRef_adds (owner name descriptor : String) (isInterface : Bool) :
    AddsAtMost 6 (addMethodRef owner name descriptor isInterface) :=
  .bind (m := 4) (addClass_adds owner) fun _ =>
    .bind (m := 1) (addNameAndType_adds name descriptor) fun _ => intern_adds (by split <;> rfl)

end Pool

/-- An edit of a pool that only adds constants where it succeeds. -/
def EditGrows (x : Edit Pool α) : Prop := ∀ (p : Pool) a q, x p = .ok a q → p.GrowsTo q

namespace EditGrows

theorem pure (a : α) : EditGrows (Pure.pure a : Edit Pool α) := by
  intro p b q h
  obtain ⟨-, rfl⟩ := step_pure_eq_ok.1 h
  exact .refl p

theorem bind {x : Edit Pool α} {f : α → Edit Pool β} (h : EditGrows x)
    (h' : ∀ a, EditGrows (f a)) : EditGrows (x >>= f) := by
  intro p b r done
  obtain ⟨a, q, first, second⟩ := step_bind_eq_ok.1 done
  exact (h p a q first).trans (h' a q b r second)

theorem mapM {f : α → Edit Pool β} {as : List α} (h : ∀ a, EditGrows (f a)) :
    EditGrows (as.mapM f) := by
  induction as with
  | nil => exact .pure []
  | cons a as ih =>
    rw [List.mapM_cons]
    exact (h a).bind fun _ => ih.bind fun _ => .pure _

theorem change {x : StateM Pool α} (h : Grows x) : EditGrows (liftM x : Edit Pool α) := by
  intro p a q done
  exact h.made (edit_change_eq_ok.1 done)

end EditGrows

end Growth

end Weft
