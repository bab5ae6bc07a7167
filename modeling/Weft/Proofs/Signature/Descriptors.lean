import Std.Data.String.ToNat
import Weft.Proofs.Steps
import Weft.Signature.Descriptor

/-!
# Printed descriptors are read back

The types that a reading of a descriptor gives are spelled plainly, and a reading of what is printed
for such types gives them again, also where dots stand for slashes.
-/

namespace Weft

/-- The name is one that descriptors can spell. -/
structure ClassName.Spelled (name : ClassName) : Prop where
  nonempty : name.internal.toList ≠ []
  plain : ∀ c ∈ name.internal.toList, c ≠ ';' ∧ c ≠ '.'

/-- A name can be checked character by character. -/
theorem ClassName.spelled_of_all {name : ClassName} (nonempty : name.internal.toList ≠ [])
    (plain : (name.internal.toList.all fun c => c != ';' && c != '.') = true) : name.Spelled where
  nonempty := nonempty
  plain c mem := by simpa using List.all_eq_true.1 plain c mem

/-- A type that arrays can have as their element. -/
inductive JType.Element : JType → Prop
  | primitive (p : Primitive) : Element (.primitive p)
  | reference {name : ClassName} (spelled : name.Spelled) : Element (.reference name)

/-- A type, other than `void`, that descriptors can spell. -/
inductive JType.Spelled : JType → Prop
  | element {t : JType} (h : t.Element) : Spelled t
  | array {n : UInt8} {t : JType} (some : n ≠ 0) (h : t.Element) : Spelled (.array n t)

/-- Types that descriptors can spell. -/
structure MethodDescriptor.Spelled (d : MethodDescriptor) : Prop where
  params : ∀ t ∈ d.params, t.Spelled
  ret : d.ret = .void ∨ d.ret.Spelled

theorem JType.Spelled.isVoid {t : JType} (h : t.Spelled) : t.isVoid = false := by
  cases h with
  | element h => cases h <;> rfl
  | array => rfl

theorem MethodDescriptor.Spelled.values {d : MethodDescriptor} (h : d.Spelled) :
    ∀ t ∈ d.params, t.isVoid = false := fun t mem => (h.params t mem).isVoid

/-! ## What is read -/

namespace Scan

variable {α β : Type} {s s' : Scanner}

theorem bind_eq_ok {x : Scan α} {f : α → Scan β} {b : β} :
    (x >>= f) s = .ok b s' ↔ ∃ a t, x s = .ok a t ∧ f a t = .ok b s' :=
  step_bind_eq_ok

theorem parse_eq_ok {scan : Scan α} {text : String} {a : α} :
    scan.parse text = .ok a ↔ ∃ s', scan (.ofText text) = .ok a s' := by
  unfold parse EStateM.run
  cases scan (.ofText text) with
  | ok b s' => simp
  | error e s' => simp

theorem parse_eq_error {scan : Scan α} {text : String} {e : Error} :
    scan.parse text = .error e ↔ ∃ s', scan (.ofText text) = .error e s' := by
  unfold parse EStateM.run
  cases scan (.ofText text) with
  | ok b s' => simp
  | error e s' => simp

/-- An identifier is what stands before the first of the characters that stop it, and is not empty. -/
theorem identifier_eq_ok {stops : List Char} {name : String}
    (h : identifier stops s = .ok name s') :
    name.toList ≠ [] ∧ (∀ c ∈ name.toList, c ∉ stops) ∧ s'.tail = [] ∧
      s.rest = name.toList ++ s'.rest := by
  unfold identifier at h
  rw [step_get_bind] at h
  obtain ⟨⟨⟩, t, moved, h⟩ := bind_eq_ok.1 h
  cases moved
  split at h
  · cases h
  · split at h
    · cases h
    · rename_i some
      obtain ⟨rfl, rfl⟩ := step_pure_eq_ok.1 h
      rw [String.toList_ofList]
      refine ⟨by simpa using some, fun c mem => ?_, rfl, List.takeWhile_append_dropWhile.symm⟩
      have kept := List.all_eq_true.1 List.all_takeWhile c mem
      simpa using kept

theorem stripDescriptor_of_plain {cs : List Char} (plain : ∀ c ∈ cs, c ≠ ';') :
    stripDescriptor cs = cs := by
  unfold stripDescriptor
  split
  · rename_i rest
    rw [if_neg fun last => plain ';' (List.mem_cons_of_mem _ (List.mem_of_getLast? last)) rfl]
  · rfl

theorem spelled_ofText {name : String} (some : name.toList ≠ []) (plain : ∀ c ∈ name.toList, c ≠ ';') :
    (ClassName.ofText name).Spelled := by
  have whole := stripDescriptor_of_plain plain
  constructor
  · simpa [ClassName.ofText, whole] using some
  · intro c mem
    simp only [ClassName.ofText, whole, String.toList_ofList, List.mem_map] at mem
    obtain ⟨d, mem, rfl⟩ := mem
    split
    · decide
    · exact ⟨plain d mem, ‹_›⟩

/-- A type of elements is a class, whose name a semicolon ends, or one of the primitive types. -/
theorem elementType_eq_ok {code : Char} {t : JType} (h : elementType code s = .ok t s') :
    (code = 'L' ∧ ∃ name s₁, identifier [';'] s = .ok name s₁ ∧ expect ';' s₁ = .ok () s' ∧
        t = .ofClass name) ∨
      ∃ p : Primitive, p.code = code ∧ t = .primitive p ∧ s' = s := by
  unfold elementType at h
  split at h
  · rename_i letter
    obtain ⟨name, s₁, read, h⟩ := bind_eq_ok.1 h
    obtain ⟨⟨⟩, s₂, closed, h⟩ := bind_eq_ok.1 h
    obtain ⟨rfl, rfl⟩ := step_pure_eq_ok.1 h
    exact .inl ⟨letter, name, s₁, read, closed, rfl⟩
  · split at h
    · cases h
    · cases found : Primitive.ofCode? code with
      | none =>
        rw [found] at h
        cases h
      | some p =>
        rw [found] at h
        obtain ⟨rfl, rfl⟩ := step_pure_eq_ok.1 h
        exact .inr ⟨p, by simpa using List.find?_some found, rfl, rfl⟩

theorem element_of_elementType {code : Char} {t : JType} (h : elementType code s = .ok t s') :
    t.Element := by
  rcases elementType_eq_ok h with ⟨-, name, s₁, read, -, rfl⟩ | ⟨p, -, rfl, -⟩
  · obtain ⟨some, plain, -⟩ := identifier_eq_ok read
    exact .reference (spelled_ofText some fun c mem => by simpa using plain c mem)
  · exact .primitive p

/-- The dimensions are one more than the brackets that follow the first. -/
theorem dimensions_eq_ok {n : UInt8} (h : dimensions s = .ok n s') :
    n.toNat = (s.rest.takeWhile (· = '[')).length + 1 ∧
      s' = s.skip (s.rest.takeWhile (· = '[')).length := by
  unfold dimensions at h
  rw [step_get_bind] at h
  split at h
  · cases h
  · obtain ⟨⟨⟩, t, moved, h⟩ := bind_eq_ok.1 h
    cases moved
    obtain ⟨rfl, rfl⟩ := step_pure_eq_ok.1 h
    exact ⟨UInt8.toNat_ofNat_of_lt' (by simp only [UInt8.size]; omega), rfl⟩

theorem fieldType_eq_ok {t : JType} (h : fieldType s = .ok t s') : t.Spelled := by
  obtain ⟨code, s₁, -, h⟩ := bind_eq_ok.1 h
  split at h
  · obtain ⟨n, s₂, counted, h⟩ := bind_eq_ok.1 h
    obtain ⟨first, s₃, -, h⟩ := bind_eq_ok.1 h
    obtain ⟨element, s₄, read, h⟩ := bind_eq_ok.1 h
    obtain ⟨rfl, rfl⟩ := step_pure_eq_ok.1 h
    have some : n ≠ 0 := fun zero => by
      have count := (dimensions_eq_ok counted).1
      rw [zero] at count
      cases count
    cases element_of_elementType read with
    | primitive p => exact .array some (.primitive p)
    | reference spelled => exact .array some (.reference spelled)
  · exact .element (element_of_elementType h)

theorem manyUntil_eq_ok {stop : Char} {item : Scan α} {P : α → Prop} {as : List α}
    (each : ∀ s a s', item s = .ok a s' → P a) (h : manyUntil stop item s = .ok as s') :
    ∀ a ∈ as, P a := by
  have go (fuel : Nat) (acc : List α) (s : Scanner) (before : ∀ a ∈ acc, P a)
      (h : untilStop.go stop item fuel acc s = .ok as s') : ∀ a ∈ as, P a := by
    induction fuel generalizing acc s with
    | zero => cases h
    | succ fuel ih =>
      obtain ⟨c, s₁, -, h⟩ := bind_eq_ok.1 h
      split at h
      · obtain ⟨rfl, rfl⟩ := step_pure_eq_ok.1 h
        exact fun a mem => before a (List.mem_reverse.1 mem)
      · obtain ⟨a, s₂, read, h⟩ := bind_eq_ok.1 h
        refine ih (a :: acc) s₂ (fun b mem => ?_) h
        rcases List.mem_cons.1 mem with rfl | mem
        · exact each _ _ _ read
        · exact before b mem
  exact go s.fuel [] s (fun _ mem => nomatch mem) h

theorem returnType_eq_ok {t : JType} (h : returnType s = .ok t s') : t = .void ∨ t.Spelled := by
  obtain ⟨void, s₁, -, h⟩ := bind_eq_ok.1 h
  cases void with
  | true =>
    obtain ⟨rfl, rfl⟩ := step_pure_eq_ok.1 h
    exact .inl rfl
  | false => exact .inr (fieldType_eq_ok h)

end Scan

/-- The parts of a text that is read as a method descriptor. -/
theorem MethodDescriptor.ofText_eq_ok {text : String} {d : MethodDescriptor} :
    MethodDescriptor.ofText text = .ok d ↔ ∃ s₁ s₂ s₃ s₄ s₅,
      Scan.expect '(' (.ofText text) = .ok () s₁ ∧
      Scan.manyUntil ')' Scan.fieldType s₁ = .ok d.params s₂ ∧
      Scan.expect ')' s₂ = .ok () s₃ ∧ Scan.returnType s₃ = .ok d.ret s₄ ∧
      Scan.finish s₄ = .ok () s₅ := by
  refine Scan.parse_eq_ok.trans ⟨?_, ?_⟩
  · rintro ⟨s, read⟩
    obtain ⟨⟨⟩, s₁, opened, read⟩ := Scan.bind_eq_ok.1 read
    obtain ⟨params, s₂, many, read⟩ := Scan.bind_eq_ok.1 read
    obtain ⟨⟨⟩, s₃, closed, read⟩ := Scan.bind_eq_ok.1 read
    obtain ⟨ret, s₄, returned, read⟩ := Scan.bind_eq_ok.1 read
    obtain ⟨⟨⟩, s₅, finished, read⟩ := Scan.bind_eq_ok.1 read
    obtain ⟨rfl, rfl⟩ := step_pure_eq_ok.1 read
    exact ⟨s₁, s₂, s₃, s₄, s₅, opened, many, closed, returned, finished⟩
  · rintro ⟨s₁, s₂, s₃, s₄, s₅, opened, many, closed, returned, finished⟩
    exact ⟨s₅, Scan.bind_eq_ok.2 ⟨(), s₁, opened, Scan.bind_eq_ok.2 ⟨_, s₂, many,
      Scan.bind_eq_ok.2 ⟨(), s₃, closed, Scan.bind_eq_ok.2 ⟨_, s₄, returned,
        Scan.bind_eq_ok.2 ⟨(), s₅, finished, rfl⟩⟩⟩⟩⟩⟩

/-- The parts of a text that is read as a field descriptor. -/
theorem JType.ofDescriptor_eq_ok {text : String} {t : JType} :
    JType.ofDescriptor text = .ok t ↔ ∃ s₁ s₂,
      Scan.fieldType (.ofText text) = .ok t s₁ ∧ Scan.finish s₁ = .ok () s₂ := by
  refine Scan.parse_eq_ok.trans ⟨?_, ?_⟩
  · rintro ⟨s, read⟩
    obtain ⟨t', s₁, typed, read⟩ := Scan.bind_eq_ok.1 read
    obtain ⟨⟨⟩, s₂, finished, read⟩ := Scan.bind_eq_ok.1 read
    obtain ⟨rfl, rfl⟩ := step_pure_eq_ok.1 read
    exact ⟨s₁, s₂, typed, finished⟩
  · rintro ⟨s₁, s₂, typed, finished⟩
    exact ⟨s₂, Scan.bind_eq_ok.2 ⟨t, s₁, typed, Scan.bind_eq_ok.2 ⟨(), s₂, finished, rfl⟩⟩⟩

/-- What is read of a descriptor is spelled plainly. -/
theorem MethodDescriptor.spelled_of_ofText {text : String} {d : MethodDescriptor}
    (h : MethodDescriptor.ofText text = .ok d) : d.Spelled := by
  obtain ⟨s₁, s₂, s₃, s₄, s₅, -, many, -, returned, -⟩ := ofText_eq_ok.1 h
  exact ⟨Scan.manyUntil_eq_ok (fun _ _ _ => Scan.fieldType_eq_ok) many,
    Scan.returnType_eq_ok returned⟩

theorem JType.spelled_of_ofDescriptor {text : String} {t : JType}
    (h : JType.ofDescriptor text = .ok t) : t.Spelled := by
  obtain ⟨s₁, s₂, typed, -⟩ := ofDescriptor_eq_ok.1 h
  exact Scan.fieldType_eq_ok typed

/-! ## What is written -/

namespace Scan

variable {α β : Type} {s : Scanner} {cs ds rest : List Char}

/-- The scan takes exactly the characters and answers the value, whatever follows. -/
def Takes (scan : Scan α) (cs : List Char) (a : α) : Prop :=
  ∀ s rest, s.tail = [] → s.rest = cs ++ rest →
    ∃ s', scan s = .ok a s' ∧ s'.tail = [] ∧ s'.rest = rest

theorem Takes.pure (a : α) : Takes (Pure.pure a) [] a := fun s _ whole here =>
  ⟨s, rfl, whole, here⟩

theorem Takes.bind {x : Scan α} {f : α → Scan β} {a : α} {b : β} (h : Takes x cs a)
    (h' : Takes (f a) ds b) : Takes (x >>= f) (cs ++ ds) b := by
  intro s rest whole here
  obtain ⟨s', first, whole', here'⟩ := h s (ds ++ rest) whole (by rw [here, List.append_assoc])
  obtain ⟨s'', second, done⟩ := h' s' rest whole' here'
  exact ⟨s'', bind_eq_ok.2 ⟨a, s', first, second⟩, done⟩

/-- The scanner stands before an ASCII character. -/
structure Before (s : Scanner) (c : Char) (rest : List Char) : Prop where
  whole : s.tail = []
  here : s.rest = c :: rest
  ascii : c.toNat < 0x80

theorem Before.uncons?_eq {c : Char} (h : Before s c rest) :
    s.uncons? = some (c, { s with pos := s.pos + 1, rest }) := by
  simp only [Scanner.uncons?, h.whole, h.here, if_pos h.ascii]

theorem Before.peek_eq {c : Char} (h : Before s c rest) : peek s = .ok c s := by
  unfold peek
  rw [step_get_bind, h.uncons?_eq]
  rfl

theorem Before.next_eq {c : Char} (h : Before s c rest) :
    next s = .ok c { s with pos := s.pos + 1, rest } := by
  unfold next
  rw [step_get_bind, h.uncons?_eq]
  rfl

theorem Takes.next {c : Char} (ascii : c.toNat < 0x80) : Takes next [c] c := fun _ _ whole here =>
  ⟨_, Before.next_eq ⟨whole, here, ascii⟩, whole, rfl⟩

theorem Before.expect_eq {c : Char} (h : Before s c rest) :
    expect c s = .ok () { s with pos := s.pos + 1, rest } := by
  refine bind_eq_ok.2 ⟨c, _, h.next_eq, ?_⟩
  rw [bne_self_eq_false]
  rfl

theorem Takes.expect {c : Char} (ascii : c.toNat < 0x80) : Takes (expect c) [c] () :=
  fun _ _ whole here => ⟨_, Before.expect_eq ⟨whole, here, ascii⟩, whole, rfl⟩

theorem identifier_eq {stops name : List Char} {stop : Char} (stops_mem : stop ∈ stops)
    (some : name ≠ []) (plain : ∀ c ∈ name, c ∉ stops) {s : Scanner}
    (here : s.rest = name ++ stop :: rest) :
    identifier stops s = .ok (String.ofList name) { s with
      pos := s.pos + (String.ofList name).utf8ByteSize, tail := [], rest := stop :: rest } := by
  have kept : ∀ c ∈ name, (!stops.contains c) = true := fun c mem => by simpa using plain c mem
  have taken : s.rest.takeWhile (fun c => !stops.contains c) = name := by
    rw [here, List.takeWhile_append_of_pos kept]
    simp [stops_mem]
  have left : s.rest.dropWhile (fun c => !stops.contains c) = stop :: rest := by
    rw [here, List.dropWhile_append_of_pos kept]
    simp [stops_mem]
  unfold identifier
  rw [step_get_bind, taken, left, List.isEmpty_cons, List.isEmpty_eq_false_iff.2 some]
  rfl

theorem dimensions_eq {n : Nat} {c : Char} (few : n < 255) (other : c ≠ '[')
    (here : s.rest = List.replicate n '[' ++ c :: rest) :
    dimensions s = .ok (UInt8.ofNat (n + 1)) (s.skip n) ∧ (s.skip n).rest = c :: rest := by
  have brackets : (s.rest.takeWhile (· = '[')).length = n := by
    rw [here, List.takeWhile_append_of_pos fun d mem => by simp [List.eq_of_mem_replicate mem],
      List.takeWhile_cons_of_neg (by simpa using other), List.append_nil, List.length_replicate]
  constructor
  · unfold dimensions
    rw [step_get_bind, brackets]
    show (if 255 ≤ n then _ else _ : Scan UInt8) s = _
    rw [if_neg (by omega)]
    rfl
  · rw [Scanner.skip, here, List.drop_left' List.length_replicate]

end Scan

theorem Primitive.code_plain (p : Primitive) : p.code.toNat < 0x80 ∧ p.code ≠ '[' ∧ p.code ≠ ')' ∧
    p.code ≠ 'V' ∧ p.code ≠ 'L' ∧ p.code ≠ '/' := by
  cases p <;> decide

namespace ClassName

/-- The character of the internal form: a slash for a dot. -/
def slashed (c : Char) : Char := if c = '.' then '/' else c

@[simp] theorem slashed_eq_semicolon {c : Char} : slashed c = ';' ↔ c = ';' := by
  unfold slashed
  split
  · simp_all
  · simp

theorem slashed_of_ne {c d : Char} (h : slashed c = d) (other : d ≠ '/') : c = d := by
  unfold slashed at h
  split at h
  · exact absurd h.symm other
  · exact h

theorem map_slashed_of_dotless {cs : List Char} (dotless : '.' ∉ cs) : cs.map slashed = cs := by
  refine (List.map_congr_left fun c mem => if_neg ?_).trans (List.map_id _)
  rintro rfl
  exact dotless mem

/-- A name without semicolons is kept with slashes for its dots. -/
theorem ofText_of_plain {text : String} (plain : ';' ∉ text.toList) :
    ofText text = ⟨text.map slashed⟩ := by
  have whole : stripDescriptor text.toList = text.toList := by
    refine Scan.stripDescriptor_of_plain fun c mem => ?_
    rintro rfl
    exact plain mem
  rw [ofText, whole, ← String.toList_inj.1 (String.toList_map.trans String.toList_ofList.symm)]
  rfl

theorem ofText_dotless (text : String) : '.' ∉ (ofText text).internal.toList := by
  simp only [ofText, String.toList_ofList, List.mem_map, not_exists, not_and]
  intro c _ same
  split at same
  · cases same
  · contradiction

/-- A text without dots spells itself, unless it ends as descriptors do. -/
theorem ofText_of_last {text : String} (dotless : '.' ∉ text.toList)
    (last : text.toList.getLast? ≠ some ';') : ofText text = ⟨text⟩ := by
  have whole : stripDescriptor text.toList = text.toList := by
    unfold stripDescriptor
    split
    · rename_i rest same
      have other : rest.getLast? ≠ some ';' := fun ends => last (by
        rw [same, List.getLast?_cons, ends, Option.getD_some])
      rw [if_neg other, same]
    · rfl
  have same : (text.toList.map fun c => if c = '.' then '/' else c) = text.toList :=
    map_slashed_of_dotless dotless
  rw [ofText, whole, same, String.ofList_toList]

theorem isDigit_of_mem_toString {n : Nat} {c : Char} (mem : c ∈ (toString n).toList) :
    c.isDigit = true :=
  Nat.isDigit_of_mem_toDigits (b := 10) (by decide) (by decide) (Nat.toList_repr ▸ mem)

/-- The number at the end of a text is read off the text, if what stands before it is no digit. -/
theorem takeWhile_numbered (base : String) {suffix : String}
    (plain : suffix.toList.getLast?.any (!·.isDigit) = true) (n : Nat) :
    (base ++ suffix ++ toString n).toList.reverse.takeWhile Char.isDigit =
      (toString n).toList.reverse := by
  obtain ⟨last, ends, plain⟩ := (Option.any_eq_true ..).1 plain
  obtain ⟨front, whole⟩ := List.getLast?_eq_some_iff.1 ends
  have split : (base ++ suffix ++ toString n).toList.reverse =
      (toString n).toList.reverse ++ last :: (base.toList ++ front).reverse := by
    simp [whole]
  rw [split, List.takeWhile_append_of_pos fun c mem =>
      isDigit_of_mem_toString (List.mem_reverse.1 mem),
    List.takeWhile_cons_of_neg (by simpa using plain), List.append_nil]

theorem numbered_inj {base base' suffix suffix' : String}
    (plain : suffix.toList.getLast?.any (!·.isDigit) = true)
    (plain' : suffix'.toList.getLast?.any (!·.isDigit) = true) {n n' : Nat}
    (same : base ++ suffix ++ toString n = base' ++ suffix' ++ toString n') : n = n' := by
  have numbers : (toString n).toList.reverse = (toString n').toList.reverse := by
    rw [← takeWhile_numbered base plain, ← takeWhile_numbered base' plain', same]
  exact Nat.repr_inj.1 (String.toList_inj.1 (List.reverse_injective numbers))

/-- Names that end in a number spell themselves. -/
theorem ofText_numbered {base suffix : String} (dotless : '.' ∉ base.toList)
    (plain : '.' ∉ suffix.toList) (n : Nat) :
    ofText (base ++ suffix ++ toString n) = ⟨base ++ suffix ++ toString n⟩ := by
  refine ofText_of_last ?_ ?_
  · simp only [String.toList_append, List.mem_append, not_or]
    exact ⟨⟨dotless, plain⟩, fun mem => absurd (isDigit_of_mem_toString mem) (by decide)⟩
  · intro last
    have some : (toString n).toList ≠ [] := by
      rw [show (toString n).toList = _ from Nat.toList_repr]
      exact Nat.toDigits_ne_nil
    rw [String.toList_append, List.getLast?_append_of_ne_nil _ some] at last
    exact absurd (isDigit_of_mem_toString (List.mem_of_getLast? last)) (by decide)

theorem ofText_internal {name : ClassName} (h : name.Spelled) : ofText name.internal = name :=
  ofText_of_last (fun mem => (h.plain '.' mem).2 rfl) fun last =>
    (h.plain ';' (List.mem_of_getLast? last)).1 rfl

end ClassName

open Scan

theorem JType.toList_descriptor_reference (name : ClassName) :
    (descriptor (.reference name)).toList = 'L' :: (name.internal.toList ++ [';']) := by
  simp [descriptor, ClassName.descriptor]

/-- The text of a class name, dots standing for slashes or not, is taken up to its semicolon. -/
theorem ClassName.Spelled.takes {name : ClassName} (spelled : name.Spelled) {word : List Char}
    (named : word.map slashed = name.internal.toList) :
    Takes (elementType 'L') (word ++ [';']) (.reference name) := by
  have some : word ≠ [] := by
    rintro rfl
    exact spelled.nonempty named.symm
  have plain : ∀ c ∈ word, c ≠ ';' := by
    rintro c mem rfl
    exact (spelled.plain ';' (named ▸ List.mem_map.2 ⟨';', mem, by decide⟩)).1 rfl
  intro s rest whole here
  rw [List.append_assoc, List.singleton_append] at here
  have taken := identifier_eq (List.mem_singleton_self ';') some
    (fun c mem => by simpa using plain c mem) here
  have before : Before { s with
      pos := s.pos + (String.ofList word).utf8ByteSize, tail := [],
      rest := ';' :: rest } ';' rest := ⟨rfl, rfl, by decide⟩
  obtain ⟨s₂, closed, done⟩ := Takes.expect before.ascii _ rest before.whole before.here
  refine ⟨s₂, bind_eq_ok.2 ⟨_, _, taken, bind_eq_ok.2 ⟨(), s₂, closed, ?_⟩⟩, done⟩
  have unclosed : ';' ∉ (String.ofList word).toList := by
    rw [String.toList_ofList]
    exact fun mem => plain ';' mem rfl
  have same : ClassName.ofText (String.ofList word) = name := by
    rw [ClassName.ofText_of_plain unclosed, ClassName.mk.injEq, ← String.toList_inj,
      String.toList_map, String.toList_ofList, named]
  rw [JType.ofClass, same]
  rfl

/-- A text of an element begins with a character that tells it from other texts. -/
theorem JType.Element.takes {t : JType} (h : t.Element) {cs : List Char}
    (text : cs.map ClassName.slashed = t.descriptor.toList) : ∃ c ds, cs = c :: ds ∧
      c.toNat < 0x80 ∧ c ≠ '[' ∧ c ≠ ')' ∧ c ≠ 'V' ∧ Takes (elementType c) ds t := by
  cases h with
  | primitive p =>
    obtain ⟨ascii, bracket, paren, void, letter, slash⟩ := p.code_plain
    obtain ⟨c, rfl, same⟩ := List.map_eq_singleton_iff.1 (text.trans (String.toList_singleton _))
    obtain rfl := ClassName.slashed_of_ne same slash
    refine ⟨p.code, [], rfl, ascii, bracket, paren, void, ?_⟩
    unfold elementType
    rw [if_neg letter, if_neg void, Primitive.ofCode?_code]
    exact .pure _
  | @reference name spelled =>
    have whole : cs.map ClassName.slashed = 'L' :: (name.internal.toList ++ [';']) := by
      rw [text, toList_descriptor_reference]
    obtain ⟨c, ds, rfl, first, behind⟩ := List.map_eq_cons_iff.1 whole
    obtain rfl := ClassName.slashed_of_ne first (by decide)
    obtain ⟨word, ends, rfl, named, closing⟩ := List.map_eq_append_iff.1 behind
    obtain ⟨d, rfl, last⟩ := List.map_eq_singleton_iff.1 closing
    obtain rfl := ClassName.slashed_of_ne last (by decide)
    exact ⟨'L', word ++ [';'], rfl, by decide, by decide, by decide, by decide,
      spelled.takes named⟩

theorem JType.arrayOf_element {t : JType} (h : t.Element) (n : UInt8) : t.arrayOf n = .array n t := by
  cases h <;> rfl

theorem JType.toList_repeated (n : Nat) (c : Char) :
    (repeated n (String.singleton c)).toList = List.replicate n c := by
  rw [repeated, String.toList_join]
  induction n with
  | zero => rfl
  | succ n ih =>
    rw [List.replicate_succ, List.flatMap_cons, ih, String.toList_singleton]
    rfl

theorem JType.toList_descriptor_array (n : UInt8) (t : JType) :
    (descriptor (.array n t)).toList = List.replicate n.toNat '[' ++ t.descriptor.toList := by
  show (repeated n.toNat (String.singleton '[') ++ t.descriptor).toList = _
  rw [String.toList_append, toList_repeated]

/-- Brackets are brackets in every text. -/
theorem ClassName.eq_replicate_of_slashed {n : Nat} {cs : List Char}
    (h : cs.map slashed = List.replicate n '[') : cs = List.replicate n '[' := by
  refine List.eq_replicate_iff.2 ⟨?_, fun c mem => ?_⟩
  · simpa using congrArg List.length h
  · have bracket : slashed c = '[' := List.eq_of_mem_replicate (h ▸ List.mem_map_of_mem mem)
    exact slashed_of_ne bracket (by decide)

/-- Brackets in front of an element are taken as the dimensions of an array. -/
theorem JType.Element.takes_array {t : JType} (h : t.Element) {n : UInt8} {m : Nat}
    (count : n.toNat = m + 1) {c : Char} {ds : List Char} (ascii : c.toNat < 0x80)
    (bracket : c ≠ '[') (takes : Takes (elementType c) ds t) :
    Takes fieldType ('[' :: (List.replicate m '[' ++ c :: ds)) (.array n t) := by
  refine (Takes.next (by decide)).bind (f := fun code => do
    if code = '[' then
      let n ← dimensions
      let element ← elementType (← Scan.next)
      return element.arrayOf n
    else elementType code) ?_
  rw [if_pos rfl]
  intro s rest whole here
  have here : s.rest = List.replicate m '[' ++ c :: (ds ++ rest) :=
    here.trans (List.append_assoc _ _ _)
  have few : m < 255 := by
    have := n.toNat_lt
    omega
  obtain ⟨counted, left⟩ := dimensions_eq few bracket here
  have before : Before (s.skip m) c (ds ++ rest) := ⟨whole, left, ascii⟩
  obtain ⟨s', done, taken⟩ := takes { s.skip m with
    pos := (s.skip m).pos + 1, rest := ds ++ rest } rest whole rfl
  refine ⟨s', ?_, taken⟩
  rw [← count, UInt8.ofNat_toNat] at counted
  rw [step_bind_ok counted, step_bind_ok before.next_eq, step_bind_ok done, arrayOf_element h]
  rfl

/-- A text of a type begins with a character that tells it from other texts. -/
theorem JType.Spelled.takes {t : JType} (h : t.Spelled) {cs : List Char}
    (text : cs.map ClassName.slashed = t.descriptor.toList) : ∃ c ds, cs = c :: ds ∧
      c.toNat < 0x80 ∧ c ≠ ')' ∧ c ≠ 'V' ∧ Takes fieldType cs t := by
  cases h with
  | element h =>
    obtain ⟨c, ds, rfl, ascii, bracket, paren, void, takes⟩ := h.takes text
    refine ⟨c, ds, rfl, ascii, paren, void, (Takes.next ascii).bind ?_⟩
    rwa [if_neg bracket]
  | @array n t some h =>
    rw [toList_descriptor_array] at text
    obtain ⟨brackets, cs, rfl, opened, element⟩ := List.map_eq_append_iff.1 text
    obtain rfl := ClassName.eq_replicate_of_slashed opened
    obtain ⟨c, ds, rfl, ascii, bracket, -, -, takes⟩ := h.takes element
    obtain ⟨m, count⟩ : ∃ m, n.toNat = m + 1 := by
      have := mt UInt8.toNat_inj.1 some
      simp at this
      exact ⟨n.toNat - 1, by omega⟩
    rw [count, List.replicate_succ, List.cons_append]
    exact ⟨'[', _, rfl, by decide, by decide, by decide, h.takes_array count ascii bracket takes⟩

/-! ## Method descriptors -/

namespace Scan

/-- Items whose texts each begin with a character that tells them from the stop are taken one by
one. -/
theorem untilStop_items {stop : Char} {item : Scan α} {print : α → List Char} {as : List α}
    (each : ∀ a ∈ as, ∀ cs, cs.map ClassName.slashed = print a →
      ∃ c ds, cs = c :: ds ∧ c.toNat < 0x80 ∧ c ≠ stop ∧ Takes item cs a)
    {cs : List Char} (texts : cs.map ClassName.slashed = as.flatMap print) {s : Scanner}
    (whole : s.tail = []) (here : s.rest = cs ++ rest) (fuel : Nat) (acc : List α) :
    ∃ s', untilStop.go stop item (fuel + as.length) acc s =
        untilStop.go stop item fuel (as.reverse ++ acc) s' ∧ s'.tail = [] ∧ s'.rest = rest := by
  induction as generalizing cs s acc with
  | nil =>
    obtain rfl := List.map_eq_nil_iff.1 texts
    exact ⟨s, rfl, whole, here⟩
  | cons a as ih =>
    obtain ⟨first, others, rfl, text, texts'⟩ := List.map_eq_append_iff.1 texts
    obtain ⟨c, ds, rfl, ascii, other, takes⟩ := each a List.mem_cons_self first text
    rw [List.append_assoc] at here
    have before : Before s c (ds ++ (others ++ rest)) := ⟨whole, here, ascii⟩
    obtain ⟨s₁, taken, whole₁, here₁⟩ := takes s _ whole here
    obtain ⟨s₂, done, whole₂, here₂⟩ := ih (fun b mem => each b (List.mem_cons_of_mem a mem)) texts'
      whole₁ here₁ (a :: acc)
    refine ⟨s₂, ?_, whole₂, here₂⟩
    rw [List.length_cons, ← Nat.add_assoc, List.reverse_cons, List.append_assoc,
      List.singleton_append, ← done]
    conv_lhs => unfold untilStop.go
    rw [step_bind_ok before.peek_eq, if_neg (by simpa using other), step_bind_ok taken]

/-- Up to what follows the items, there is fuel left for one more round. -/
theorem manyUntil_items {stop : Char} {item : Scan α} {print : α → List Char} {as : List α}
    (each : ∀ a ∈ as, ∀ cs, cs.map ClassName.slashed = print a →
      ∃ c ds, cs = c :: ds ∧ c.toNat < 0x80 ∧ c ≠ stop ∧ Takes item cs a)
    {cs : List Char} (texts : cs.map ClassName.slashed = as.flatMap print) {s : Scanner}
    (few : as.length < s.fuel) (whole : s.tail = []) (here : s.rest = cs ++ rest) :
    ∃ s' fuel, manyUntil stop item s = untilStop.go stop item (fuel + 1) as.reverse s' ∧
      s'.tail = [] ∧ s'.rest = rest := by
  obtain ⟨fuel, enough⟩ : ∃ fuel, s.fuel = fuel + 1 + as.length := ⟨s.fuel - 1 - as.length, by omega⟩
  obtain ⟨s', taken, left⟩ := untilStop_items each texts whole here (fuel + 1) []
  refine ⟨s', fuel, ?_, left⟩
  rw [← List.append_nil as.reverse, ← taken, ← enough]
  rfl

/-- Items up to the stop are all there is. -/
theorem manyUntil_eq {stop : Char} {item : Scan α} {print : α → List Char} {as : List α}
    (stops : stop.toNat < 0x80)
    (each : ∀ a ∈ as, ∀ cs, cs.map ClassName.slashed = print a →
      ∃ c ds, cs = c :: ds ∧ c.toNat < 0x80 ∧ c ≠ stop ∧ Takes item cs a)
    {cs : List Char} (texts : cs.map ClassName.slashed = as.flatMap print) {s : Scanner}
    (few : as.length < s.fuel) (whole : s.tail = []) (here : s.rest = cs ++ stop :: rest) :
    ∃ s', manyUntil stop item s = .ok as s' ∧ s'.tail = [] ∧ s'.rest = stop :: rest := by
  obtain ⟨s', fuel, taken, whole', here'⟩ := manyUntil_items each texts few whole here
  have before : Before s' stop rest := ⟨whole', here', stops⟩
  refine ⟨s', ?_, whole', here'⟩
  rw [taken]
  unfold untilStop.go
  rw [step_bind_ok before.peek_eq, if_pos (beq_self_eq_true stop), List.reverse_reverse]
  rfl

theorem length_le_of_texts {print : α → List Char} {as : List α}
    (each : ∀ a ∈ as, print a ≠ []) {cs : List Char}
    (texts : cs.map ClassName.slashed = as.flatMap print) : as.length ≤ cs.length := by
  induction as generalizing cs with
  | nil => exact Nat.zero_le _
  | cons a as ih =>
    obtain ⟨first, others, rfl, text, texts'⟩ := List.map_eq_append_iff.1 texts
    have rest := ih (fun b mem => each b (List.mem_cons_of_mem a mem)) texts'
    have some : first ≠ [] := by
      rintro rfl
      exact each a List.mem_cons_self text.symm
    have := List.length_pos_iff.2 some
    rw [List.length_cons, List.length_append]
    omega

theorem length_le_utf8ByteSize (cs : List Char) : cs.length ≤ (String.ofList cs).utf8ByteSize := by
  induction cs with
  | nil => exact Nat.zero_le _
  | cons c cs ih =>
    have := c.utf8Size_pos
    rw [String.ofList_cons, String.utf8ByteSize_append, String.utf8ByteSize_singleton,
      List.length_cons]
    omega

theorem Takes.returnType {t : JType} (h : t = .void ∨ t.Spelled) {cs : List Char}
    (text : cs.map ClassName.slashed = t.descriptor.toList) : Takes returnType cs t := by
  rcases h with rfl | spelled
  · obtain ⟨c, rfl, same⟩ := List.map_eq_singleton_iff.1 text
    obtain rfl := ClassName.slashed_of_ne same (by decide)
    intro s rest whole here
    have before : Before s 'V' rest := ⟨whole, here, by decide⟩
    refine ⟨{ s with pos := s.pos + 1, rest }, ?_, whole, rfl⟩
    exact bind_eq_ok.2 ⟨true, _, bind_eq_ok.2 ⟨'V', s, before.peek_eq,
      bind_eq_ok.2 ⟨'V', _, before.next_eq, rfl⟩⟩, rfl⟩
  · obtain ⟨c, ds, rfl, ascii, -, void, takes⟩ := spelled.takes text
    intro s rest whole here
    have before : Before s c (ds ++ rest) := ⟨whole, here, ascii⟩
    obtain ⟨s', done, taken⟩ := takes s rest whole here
    refine ⟨s', bind_eq_ok.2 ⟨false, s, bind_eq_ok.2 ⟨c, s, before.peek_eq, ?_⟩, done⟩, taken⟩
    rw [if_neg (by simpa using void)]
    rfl

end Scan

theorem Scan.finish_eq_ok {s : Scanner} (whole : s.tail = []) (here : s.rest = []) :
    finish s = .ok () s := by
  refine bind_eq_ok.2 ⟨s, s, rfl, ?_⟩
  rw [Scanner.atEnd, whole, here]
  rfl

/-- No dot is printed for a type that descriptors can spell. -/
theorem JType.Spelled.dotless {t : JType} (h : t.Spelled) : '.' ∉ t.descriptor.toList := by
  have element {t : JType} (h : t.Element) : '.' ∉ t.descriptor.toList := by
    cases h with
    | primitive p => cases p <;> decide
    | @reference name spelled =>
      have plain : '.' ∉ name.internal.toList := fun mem => (spelled.plain '.' mem).2 rfl
      simp [toList_descriptor_reference, plain]
  cases h with
  | element h => exact element h
  | @array n t some h =>
    rw [toList_descriptor_array, List.mem_append, not_or]
    exact ⟨fun mem => absurd (List.eq_of_mem_replicate mem) (by decide), element h⟩

namespace MethodDescriptor

variable {d : MethodDescriptor}

theorem Spelled.dotless (h : d.Spelled) : '.' ∉ d.descriptor.toList := by
  have params : '.' ∉ d.params.flatMap (·.descriptor.toList) := fun mem => by
    obtain ⟨t, param, dot⟩ := List.mem_flatMap.1 mem
    exact (h.params t param).dotless dot
  have ret : '.' ∉ d.ret.descriptor.toList := by
    rcases h.ret with void | spelled
    · rw [void]
      decide
    · exact spelled.dotless
  simp [descriptor, String.toList_join, List.flatMap_map, params, ret]

theorem toList_descriptor (d : MethodDescriptor) : d.descriptor.toList =
    '(' :: (d.params.flatMap (·.descriptor.toList) ++ ')' :: d.ret.descriptor.toList) := by
  simp [descriptor, String.toList_join, List.flatMap_map]

theorem takes_param {params : List JType} (spelled : ∀ t ∈ params, t.Spelled) :
    ∀ t ∈ params, ∀ cs, cs.map ClassName.slashed = t.descriptor.toList →
      ∃ c ds, cs = c :: ds ∧ c.toNat < 0x80 ∧ c ≠ ')' ∧ Takes fieldType cs t := by
  intro t mem cs text
  obtain ⟨c, ds, same, ascii, other, -, takes⟩ := (spelled t mem).takes text
  exact ⟨c, ds, same, ascii, other, takes⟩

/-- Behind the opening parenthesis there is fuel for every parameter, and for a round more. -/
theorem expect_open {params : List JType} (spelled : ∀ t ∈ params, t.Spelled) {cs rest : List Char}
    (texts : cs.map ClassName.slashed = params.flatMap (·.descriptor.toList)) {text : String}
    (here : text.toList = '(' :: (cs ++ rest)) :
    ∃ s, expect '(' (.ofText text) = .ok () s ∧ params.length < s.fuel ∧ s.tail = [] ∧
      s.rest = cs ++ rest := by
  have first : Before (.ofText text) '(' (cs ++ rest) := ⟨rfl, here, by decide⟩
  refine ⟨_, first.expect_eq, ?_, rfl, rfl⟩
  have some (t : JType) (mem : t ∈ params) : t.descriptor.toList ≠ [] := fun empty => by
    obtain ⟨c, ds, same, -⟩ := takes_param spelled t mem [] empty.symm
    cases same
  have params := length_le_of_texts some texts
  have size := length_le_utf8ByteSize text.toList
  rw [String.ofList_toList, here, List.length_cons, List.length_append] at size
  show _ < text.utf8ByteSize - (0 + 1) + 1
  omega

/-- A text of types that descriptors can spell is read as them. -/
theorem ofText_of_text (h : d.Spelled) {text : String}
    (spells : text.map ClassName.slashed = d.descriptor) : MethodDescriptor.ofText text = .ok d := by
  have chars := congrArg String.toList spells
  rw [String.toList_map, toList_descriptor] at chars
  obtain ⟨c, cs, here, first, behind⟩ := List.map_eq_cons_iff.1 chars
  obtain rfl := ClassName.slashed_of_ne first (by decide)
  obtain ⟨inside, outside, rfl, texts, behind'⟩ := List.map_eq_append_iff.1 behind
  obtain ⟨c, returned, rfl, last, text'⟩ := List.map_eq_cons_iff.1 behind'
  obtain rfl := ClassName.slashed_of_ne last (by decide)
  obtain ⟨s₁, opened, few, whole₁, here₁⟩ := expect_open h.params texts here
  obtain ⟨s₂, params, whole₂, here₂⟩ := manyUntil_eq (by decide) (takes_param h.params) texts few
    whole₁ here₁
  obtain ⟨s₃, closed, whole₃, here₃⟩ := Takes.expect (by decide) s₂ returned whole₂ here₂
  obtain ⟨s₄, ret, whole₄, here₄⟩ := Takes.returnType h.ret text' s₃ [] whole₃
    (by rw [here₃, List.append_nil])
  exact ofText_eq_ok.2 ⟨s₁, s₂, s₃, s₄, s₄, opened, params, closed, ret, finish_eq_ok whole₄ here₄⟩

/-- What is printed for types that descriptors can spell is read back. -/
theorem ofText_descriptor (h : d.Spelled) : MethodDescriptor.ofText d.descriptor = .ok d := by
  refine ofText_of_text h (String.toList_inj.1 ?_)
  rw [String.toList_map, ClassName.map_slashed_of_dotless h.dotless]

end MethodDescriptor

/-- A text of a type that descriptors can spell is read as it. -/
theorem JType.ofDescriptor_of_text {t : JType} (h : t.Spelled) {text : String}
    (spells : text.map ClassName.slashed = t.descriptor) : JType.ofDescriptor text = .ok t := by
  have chars := congrArg String.toList spells
  rw [String.toList_map] at chars
  obtain ⟨-, -, -, -, -, -, takes⟩ := h.takes chars
  obtain ⟨s', read, whole, left⟩ := takes (.ofText text) [] rfl (List.append_nil _).symm
  exact ofDescriptor_eq_ok.2 ⟨s', s', read, finish_eq_ok whole left⟩

/-- What is printed for a type that descriptors can spell is read back. -/
theorem JType.ofDescriptor_descriptor {t : JType} (h : t.Spelled) :
    JType.ofDescriptor t.descriptor = .ok t := by
  refine ofDescriptor_of_text h (String.toList_inj.1 ?_)
  rw [String.toList_map, ClassName.map_slashed_of_dotless h.dotless]

end Weft
