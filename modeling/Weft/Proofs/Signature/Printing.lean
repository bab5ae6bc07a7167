import Weft.Proofs.Bytes.Reading
import Weft.Proofs.Signature.Descriptors

/-!
# Descriptors are printed as they stand

A reading of a descriptor keeps everything of its text but the spelling of the names of classes, in
which dots become slashes. So the texts of descriptors are those that are printed for types, with
dots for slashes at will, and what is read of a text without dots is printed as that text. More
dimensions than can be counted are refused.
-/

namespace Weft

open ClassName (slashed)

namespace Scan

variable {α β : Type} {s s' : Scanner}

/-! ## Characters -/

/-- The first byte of a character that is not ASCII is no ASCII character. -/
theorem lead_not_ascii {c : Char} {b : UInt8} {bs : List UInt8} (other : ¬ c.toNat < 0x80)
    (encoded : String.utf8EncodeChar c = b :: bs) : 0x80 ≤ (Char.ofNat b.toNat).toNat := by
  have high : 0x80 ≤ b.toNat := by
    have other : ¬ c.val.toNat ≤ 127 := by
      have : c.toNat = c.val.toNat := rfl
      omega
    unfold String.utf8EncodeChar at encoded
    simp only [if_neg other] at encoded
    split at encoded
    · cases encoded
      rw [UInt8.toNat_ofNat_of_lt' (by simp only [UInt8.size]; omega)]
      omega
    · split at encoded
      all_goals
        cases encoded
        rw [UInt8.toNat_ofNat_of_lt' (by simp only [UInt8.size]; omega)]
        omega
  rw [Bytes.toNat_char]
  exact high

theorem uncons?_eq_some {c : Char} (h : s.uncons? = some (c, s')) (whole : s.tail = [])
    (ascii : c.toNat < 0x80) : s'.tail = [] ∧ s.rest = c :: s'.rest := by
  unfold Scanner.uncons? at h
  rw [whole] at h
  dsimp only at h
  split at h
  · cases h
  · rename_i d rest here
    split at h
    · cases h
      exact ⟨rfl, here⟩
    · rename_i other
      split at h
      · cases h
      · rename_i b bs encoded
        cases h
        have := lead_not_ascii other encoded
        omega

theorem next_eq_ok {c : Char} (h : next s = .ok c s') : s.uncons? = some (c, s') := by
  unfold next at h
  rw [step_get_bind] at h
  cases found : s.uncons? with
  | none =>
    rw [found] at h
    cases h
  | some step =>
    rw [found] at h
    cases h
    rfl

theorem peek_eq_ok {c : Char} (h : peek s = .ok c s') : s' = s ∧ ∃ t, s.uncons? = some (c, t) := by
  unfold peek at h
  rw [step_get_bind] at h
  cases found : s.uncons? with
  | none =>
    rw [found] at h
    cases h
  | some step =>
    rw [found] at h
    cases h
    exact ⟨rfl, step.2, rfl⟩

theorem expect_eq_ok {c : Char} (h : expect c s = .ok () s') : s.uncons? = some (c, s') := by
  obtain ⟨d, t, read, compared⟩ := bind_eq_ok.1 h
  split at compared
  · obtain ⟨n, u, -, failed⟩ := bind_eq_ok.1 compared
    cases failed
  · rename_i same
    have same : d = c := by simpa using same
    cases compared
    rw [← same]
    exact next_eq_ok read

theorem accept_eq_ok {c : Char} {accepted : Bool} (h : accept c s = .ok accepted s') :
    accepted = true ∧ s.uncons? = some (c, s') ∨ accepted = false ∧ s' = s := by
  obtain ⟨d, t, peeked, compared⟩ := bind_eq_ok.1 h
  obtain ⟨rfl, u, first⟩ := peek_eq_ok peeked
  split at compared
  · rename_i same
    have same : d = c := by simpa using same
    obtain ⟨e, v, read, answered⟩ := bind_eq_ok.1 compared
    obtain ⟨rfl, rfl⟩ := step_pure_eq_ok.1 answered
    have second := next_eq_ok read
    rw [first] at second
    cases second
    exact .inl ⟨rfl, same ▸ first⟩
  · obtain ⟨rfl, rfl⟩ := step_pure_eq_ok.1 compared
    exact .inr ⟨rfl, rfl⟩

/-! ## Types -/

/-- From a whole character on, the scan takes what is printed for its answer, or that with dots for
slashes. -/
def Reprints (scan : Scan α) (print : α → List Char) : Prop :=
  ∀ s a s', s.tail = [] → scan s = .ok a s' →
    s'.tail = [] ∧ s.rest.map slashed = print a ++ s'.rest.map slashed

/-- The types of elements begin with ASCII characters, which are no dots. -/
theorem code_of_elementType {code : Char} {t : JType} (h : elementType code s = .ok t s') :
    code.toNat < 0x80 ∧ slashed code = code := by
  rcases elementType_eq_ok h with ⟨rfl, -⟩ | ⟨p, rfl, -⟩
  · decide
  · cases p <;> decide

theorem elementType_reprints {code : Char} {t : JType} (h : elementType code s = .ok t s')
    (whole : s.tail = []) :
    s'.tail = [] ∧ code :: s.rest.map slashed = t.descriptor.toList ++ s'.rest.map slashed := by
  rcases elementType_eq_ok h with ⟨rfl, name, s₁, read, closed, rfl⟩ | ⟨p, rfl, rfl, rfl⟩
  · obtain ⟨-, plain, whole₁, taken⟩ := identifier_eq_ok read
    obtain ⟨whole₂, semicolon⟩ := uncons?_eq_some (expect_eq_ok closed) whole₁ (by decide)
    have kept := ClassName.ofText_of_plain fun mem => plain ';' mem List.mem_cons_self
    refine ⟨whole₂, ?_⟩
    rw [taken, semicolon, JType.ofClass, kept, JType.toList_descriptor_reference]
    simp
  · refine ⟨whole, ?_⟩
    rw [JType.descriptor]
    simp

theorem dimensions_takes {n : UInt8} (h : dimensions s = .ok n s') (whole : s.tail = []) :
    s'.tail = [] ∧ '[' :: s.rest = List.replicate n.toNat '[' ++ s'.rest := by
  obtain ⟨count, rfl⟩ := dimensions_eq_ok h
  refine ⟨whole, ?_⟩
  have brackets : List.replicate (s.rest.takeWhile (· = '[')).length '[' =
      s.rest.takeWhile (· = '[') := by
    refine (List.eq_replicate_of_mem fun c mem => ?_).symm
    simpa using List.all_eq_true.1 List.all_takeWhile c mem
  have taken := List.prefix_iff_eq_take.1 (List.takeWhile_prefix (· = '[') (l := s.rest))
  rw [count, List.replicate_succ, brackets]
  show _ = '[' :: (_ ++ s.rest.drop (s.rest.takeWhile (· = '[')).length)
  congr 1
  calc s.rest
    _ = s.rest.take (s.rest.takeWhile (· = '[')).length ++
        s.rest.drop (s.rest.takeWhile (· = '[')).length := (List.take_append_drop _ _).symm
    _ = s.rest.takeWhile (· = '[') ++ s.rest.drop (s.rest.takeWhile (· = '[')).length := by
      rw [← taken]

theorem fieldType_reprints : Reprints fieldType (·.descriptor.toList) := by
  intro s t s' whole h
  obtain ⟨code, s₁, read, h⟩ := bind_eq_ok.1 h
  have read := next_eq_ok read
  split at h
  · rename_i bracket
    subst bracket
    obtain ⟨whole₁, opened⟩ := uncons?_eq_some read whole (by decide)
    obtain ⟨n, s₂, counted, h⟩ := bind_eq_ok.1 h
    obtain ⟨whole₂, brackets⟩ := dimensions_takes counted whole₁
    obtain ⟨first, s₃, read', h⟩ := bind_eq_ok.1 h
    obtain ⟨element, s₄, typed, h⟩ := bind_eq_ok.1 h
    obtain ⟨rfl, rfl⟩ := step_pure_eq_ok.1 h
    obtain ⟨ascii, same⟩ := code_of_elementType typed
    obtain ⟨whole₃, stands⟩ := uncons?_eq_some (next_eq_ok read') whole₂ ascii
    obtain ⟨whole₄, printed⟩ := elementType_reprints typed whole₃
    refine ⟨whole₄, ?_⟩
    show _ = (JType.arrayOf n element).descriptor.toList ++ _
    rw [opened, brackets, stands, JType.arrayOf_element (element_of_elementType typed),
      JType.toList_descriptor_array, List.append_assoc, ← printed, List.map_append,
      List.map_replicate, List.map_cons, same]
    rfl
  · obtain ⟨ascii, same⟩ := code_of_elementType h
    obtain ⟨whole₁, stands⟩ := uncons?_eq_some read whole ascii
    rw [stands, List.map_cons, same]
    exact elementType_reprints h whole₁

theorem returnType_reprints : Reprints returnType (·.descriptor.toList) := by
  intro s t s' whole h
  obtain ⟨void, s₁, accepted, typed⟩ := bind_eq_ok.1 h
  rcases accept_eq_ok accepted with ⟨rfl, read⟩ | ⟨rfl, rfl⟩
  · obtain ⟨rfl, rfl⟩ := step_pure_eq_ok.1 typed
    obtain ⟨whole₁, stands⟩ := uncons?_eq_some read whole (by decide)
    refine ⟨whole₁, ?_⟩
    rw [stands]
    rfl
  · exact fieldType_reprints _ _ _ whole typed

theorem manyUntil_reprints {stop : Char} {item : Scan α} {print : α → List Char}
    (each : Reprints item print) : Reprints (manyUntil stop item) (·.flatMap print) := by
  have go (fuel : Nat) (acc : List α) (s : Scanner) (as : List α) (s' : Scanner)
      (whole : s.tail = []) (h : untilStop.go stop item fuel acc s = .ok as s') :
      s'.tail = [] ∧ ∃ more, as = acc.reverse ++ more ∧
        s.rest.map slashed = more.flatMap print ++ s'.rest.map slashed := by
    induction fuel generalizing acc s with
    | zero => cases h
    | succ fuel ih =>
      obtain ⟨c, s₁, peeked, seen⟩ := bind_eq_ok.1 h
      obtain ⟨rfl, -⟩ := peek_eq_ok peeked
      split at seen
      · obtain ⟨rfl, rfl⟩ := step_pure_eq_ok.1 seen
        exact ⟨whole, [], (List.append_nil _).symm, rfl⟩
      · obtain ⟨a, s₂, read, h⟩ := bind_eq_ok.1 seen
        obtain ⟨whole₂, printed⟩ := each _ _ _ whole read
        obtain ⟨whole', more, rfl, rest⟩ := ih (a :: acc) s₂ whole₂ h
        refine ⟨whole', a :: more, by simp, ?_⟩
        rw [printed, rest, List.flatMap_cons, List.append_assoc]
  intro s as s' whole h
  obtain ⟨whole', more, rfl, rest⟩ := go s.fuel [] s as s' whole h
  exact ⟨whole', rest⟩

theorem rest_of_finish (h : finish s = .ok () s') : s.rest = [] := by
  unfold finish at h
  rw [step_get_bind] at h
  split at h
  · obtain ⟨n, t, -, failed⟩ := bind_eq_ok.1 h
    cases failed
  · rename_i ended
    simp only [Scanner.atEnd, Bool.not_eq_true', Bool.and_eq_false_iff, not_or,
      Bool.not_eq_false, List.isEmpty_iff] at ended
    exact ended.2

end Scan

/-! ## Printed descriptors -/

/-- What is read of a descriptor is printed as it stands, but for the dots of class names. -/
theorem MethodDescriptor.map_slashed_of_ofText {text : String} {d : MethodDescriptor}
    (h : MethodDescriptor.ofText text = .ok d) : text.map slashed = d.descriptor := by
  obtain ⟨s₁, s₂, s₃, s₄, s₅, opened, many, closed, returned, finished⟩ := ofText_eq_ok.1 h
  obtain ⟨whole₁, first⟩ := Scan.uncons?_eq_some (Scan.expect_eq_ok opened) rfl (by decide)
  have first : text.toList = '(' :: s₁.rest := first
  obtain ⟨whole₂, taken⟩ := Scan.manyUntil_reprints Scan.fieldType_reprints _ _ _ whole₁ many
  obtain ⟨whole₃, second⟩ := Scan.uncons?_eq_some (Scan.expect_eq_ok closed) whole₂ (by decide)
  obtain ⟨-, last⟩ := Scan.returnType_reprints _ _ _ whole₃ returned
  have ended := Scan.rest_of_finish finished
  rw [← String.toList_inj, String.toList_map, toList_descriptor, first, List.map_cons, taken,
    second, List.map_cons, last, ended, List.map_nil, List.append_nil]
  rfl

/-- What is read of a descriptor is printed as it stands, but for the dots of class names. -/
theorem JType.map_slashed_of_ofDescriptor {text : String} {t : JType}
    (h : JType.ofDescriptor text = .ok t) : text.map slashed = t.descriptor := by
  obtain ⟨s₁, s₂, typed, finished⟩ := ofDescriptor_eq_ok.1 h
  obtain ⟨-, printed⟩ := Scan.fieldType_reprints _ _ _ rfl typed
  rw [Scan.rest_of_finish finished, List.map_nil, List.append_nil] at printed
  rw [← String.toList_inj, String.toList_map]
  exact printed

/-- What is read of a descriptor without dots is printed as it stands. -/
theorem MethodDescriptor.descriptor_of_ofText {text : String} {d : MethodDescriptor}
    (h : MethodDescriptor.ofText text = .ok d) (dotless : '.' ∉ text.toList) :
    d.descriptor = text := by
  rw [← map_slashed_of_ofText h, ← String.toList_inj, String.toList_map,
    ClassName.map_slashed_of_dotless dotless]

theorem JType.length_descriptor_pos (t : JType) : 0 < t.descriptor.toList.length := by
  induction t with
  | void => decide
  | primitive p => cases p <;> decide
  | reference name =>
    rw [toList_descriptor_reference]
    exact Nat.succ_pos _
  | array n element ih =>
    rw [descriptor, String.toList_append, List.length_append]
    exact Nat.add_pos_right _ ih

/-- Each parameter takes at least a character of the descriptor. -/
theorem MethodDescriptor.length_params_of_ofText {text : String} {d : MethodDescriptor}
    (h : ofText text = .ok d) : d.params.length + 3 ≤ text.toList.length := by
  have characters : text.toList.length = d.descriptor.toList.length := by
    rw [← map_slashed_of_ofText h, String.toList_map, List.length_map]
  have each : d.params.length ≤ (d.params.flatMap (·.descriptor.toList)).length :=
    length_le_flatMap fun t _ => t.length_descriptor_pos
  have ret := d.ret.length_descriptor_pos
  rw [characters, toList_descriptor]
  simp only [List.length_cons, List.length_append]
  omega

/-! ## More dimensions than can be counted -/

namespace Scan

variable {n : Nat} {rest : List Char}

theorem Before.bracket (whole : s.tail = []) (some : 0 < n)
    (here : s.rest = List.replicate n '[' ++ rest) :
    Before s '[' (List.replicate (n - 1) '[' ++ rest) := by
  refine ⟨whole, ?_, by decide⟩
  rw [here, ← List.cons_append, ← List.replicate_succ, Nat.sub_add_cancel some]

theorem fieldType_overlong (whole : s.tail = []) (many : 255 < n)
    (here : s.rest = List.replicate n '[' ++ rest) :
    ∃ s', fieldType s = .error (.malformed .tooManyDimensions) s' := by
  have before := Before.bracket whole (by omega) here
  have brackets : 255 ≤ ((List.replicate (n - 1) '[' ++ rest).takeWhile (· = '[')).length := by
    rw [List.takeWhile_append_of_pos fun d mem => by simp [List.eq_of_mem_replicate mem],
      List.length_append, List.length_replicate]
    omega
  have refused (s : Scanner) (here : s.rest = List.replicate (n - 1) '[' ++ rest) :
      dimensions s = .error (.malformed .tooManyDimensions) (s.skip 255) := by
    unfold dimensions
    rw [step_get_bind, here]
    show (if 255 ≤ ((List.replicate (n - 1) '[' ++ rest).takeWhile (· = '[')).length then _
      else _ : Scan UInt8) s = _
    rw [if_pos brackets]
    rfl
  unfold fieldType
  rw [step_bind_ok before.next_eq, if_pos rfl]
  exact ⟨_, step_bind_error (refused _ rfl)⟩

end Scan

theorem JType.ofDescriptor_overlong {text : String} {n : Nat} {rest : List Char} (many : 255 < n)
    (here : text.toList = List.replicate n '[' ++ rest) :
    ofDescriptor text = .error (.malformed .tooManyDimensions) := by
  obtain ⟨s', refused⟩ := Scan.fieldType_overlong (s := .ofText text) rfl many here
  exact Scan.parse_eq_error.2 ⟨s', step_bind_error refused⟩

namespace MethodDescriptor

open Scan

variable {params : List JType} {n : Nat} {cs rest : List Char} {text : String}

theorem ofText_overlong_param (spelled : ∀ t ∈ params, t.Spelled)
    (texts : cs.map slashed = params.flatMap (·.descriptor.toList)) (many : 255 < n)
    (here : text.toList = '(' :: (cs ++ (List.replicate n '[' ++ rest))) :
    ofText text = .error (.malformed .tooManyDimensions) := by
  obtain ⟨s₁, opened, few, whole₁, here₁⟩ := expect_open spelled texts here
  obtain ⟨s₂, fuel, taken, whole₂, here₂⟩ := manyUntil_items (takes_param spelled) texts few whole₁
    here₁
  obtain ⟨s₃, refused⟩ := fieldType_overlong whole₂ many here₂
  have before := Before.bracket whole₂ (by omega) here₂
  have many : manyUntil ')' fieldType s₁ = .error (.malformed .tooManyDimensions) s₃ := by
    rw [taken]
    unfold untilStop.go
    rw [step_bind_ok before.peek_eq, if_neg (by decide), step_bind_error refused]
  exact parse_eq_error.2 ⟨s₃, (step_bind_ok opened).trans (step_bind_error many)⟩

theorem ofText_overlong_return (spelled : ∀ t ∈ params, t.Spelled)
    (texts : cs.map slashed = params.flatMap (·.descriptor.toList)) (many : 255 < n)
    (here : text.toList = '(' :: (cs ++ ')' :: (List.replicate n '[' ++ rest))) :
    ofText text = .error (.malformed .tooManyDimensions) := by
  obtain ⟨s₁, opened, few, whole₁, here₁⟩ := expect_open spelled texts here
  obtain ⟨s₂, taken, whole₂, here₂⟩ := manyUntil_eq (by decide) (takes_param spelled) texts few
    whole₁ here₁
  obtain ⟨s₃, closed, whole₃, here₃⟩ := Takes.expect (by decide) s₂ _ whole₂ here₂
  obtain ⟨s₄, refused⟩ := fieldType_overlong whole₃ many here₃
  have before := Before.bracket whole₃ (by omega) here₃
  have other : accept 'V' s₃ = .ok false s₃ := (step_bind_ok before.peek_eq).trans rfl
  have returned : returnType s₃ = .error (.malformed .tooManyDimensions) s₄ :=
    (step_bind_ok other).trans refused
  exact parse_eq_error.2 ⟨s₄, (step_bind_ok opened).trans ((step_bind_ok taken).trans
    ((step_bind_ok closed).trans (step_bind_error returned)))⟩

/-- Where a type begins in the text, there are more brackets than dimensions can be counted. -/
def IsOverlong (text : String) : Prop :=
  ∃ (params : List JType) (cs rest : List Char) (n : Nat), (∀ t ∈ params, t.Spelled) ∧
    cs.map slashed = params.flatMap (·.descriptor.toList) ∧ 255 < n ∧
    (text.toList = '(' :: (cs ++ (List.replicate n '[' ++ rest)) ∨
      text.toList = '(' :: (cs ++ ')' :: (List.replicate n '[' ++ rest)))

/-- Descriptors and their texts are inverse. What is printed for types that descriptors can spell is
read back; what is read of a text is printed as the text with slashes for dots, which only names of
classes have, so that no two texts without dots are read alike; and no array of more than 255
dimensions is read, not even as one of fewer. -/
theorem ofText_inverse :
    (∀ d : MethodDescriptor, d.Spelled → ofText d.descriptor = .ok d) ∧
      (∀ text d, ofText text = .ok d ↔ d.Spelled ∧ text.map slashed = d.descriptor) ∧
      (∀ text text' d, '.' ∉ text.toList → '.' ∉ text'.toList → ofText text = .ok d →
        ofText text' = .ok d → text = text') ∧
      ∀ text, IsOverlong text → ofText text = .error (.malformed .tooManyDimensions) := by
  refine ⟨fun d => ofText_descriptor, fun text d => ⟨?_, ?_⟩, ?_, ?_⟩
  · intro read
    exact ⟨spelled_of_ofText read, map_slashed_of_ofText read⟩
  · rintro ⟨spelled, text⟩
    exact ofText_of_text spelled text
  · intro text text' d dotless dotless' read read'
    rw [← descriptor_of_ofText read dotless, descriptor_of_ofText read' dotless']
  · rintro text ⟨params, cs, rest, n, spelled, texts, many, here | here⟩
    · exact ofText_overlong_param spelled texts many here
    · exact ofText_overlong_return spelled texts many here

theorem spelled_nested : Spelled ⟨[.array 2 (.reference ⟨"p/A"⟩), .primitive .int], .void⟩ where
  params := by
    have named : ClassName.Spelled ⟨"p/A"⟩ := ClassName.spelled_of_all (by decide) (by decide)
    have array : JType.Spelled (.array 2 (.reference ⟨"p/A"⟩)) := .array (by decide) (.reference named)
    simp [array, JType.Spelled.element (.primitive .int)]
  ret := .inl rfl

/-- A method that takes an array of two dimensions, once with a dot in the name of its class, and one
that takes an array of too many. -/
theorem ofText_inverse_nested :
    ofText "([[Lp/A;I)V" = .ok ⟨[.array 2 (.reference ⟨"p/A"⟩), .primitive .int], .void⟩ ∧
      ofText "([[Lp.A;I)V" = .ok ⟨[.array 2 (.reference ⟨"p/A"⟩), .primitive .int], .void⟩ ∧
      (∀ text, '.' ∉ text.toList →
        ofText text = .ok ⟨[.array 2 (.reference ⟨"p/A"⟩), .primitive .int], .void⟩ →
        text = "([[Lp/A;I)V") ∧
      ofText (String.ofList ('(' :: 'I' :: (List.replicate 256 '[' ++ ['I', ')', 'V']))) =
        .error (.malformed .tooManyDimensions) := by
  obtain ⟨back, reads, distinct, overlong⟩ := ofText_inverse
  have printed := back _ spelled_nested
  refine ⟨printed, (reads _ _).2 ⟨spelled_nested, String.toList_inj.1 ?_⟩, ?_, ?_⟩
  · rw [String.toList_map]
    decide
  · intro text dotless read
    exact distinct _ _ _ dotless (by decide) read printed
  · refine overlong _ ⟨[.primitive .int], ['I'], ['I', ')', 'V'], 256, ?_, by decide, by decide, .inl ?_⟩
    · simp [JType.Spelled.element (.primitive .int)]
    · rw [String.toList_ofList]
      rfl

end MethodDescriptor

end Weft
