import Weft.Proofs.Signature.Printing
import Weft.Signature.TypeName

/-!
# Every spelling of a type is read alike

A type is spelled by its descriptor, by its name in source text, and by the name of its element
behind which brackets stand, where the name of a class may be the internal one. Blanks around a
spelling and in front of brackets do not count. Unless the name of its class is also the spelling of
another type, all spellings of a type are read as that type. No spelling is read of a type that cannot
be: of one with more dimensions than can be counted, of a class without a name, of an array over
`void`.
-/

namespace Weft

/-! ## Trimmed text -/

namespace Text

variable {cs ds before after : List Char} {c : Char}

/-- There is nothing but blanks. -/
def Blank (cs : List Char) : Prop := ∀ c ∈ cs, isBlank c = true

theorem blank_nil : Blank [] := fun _ mem => nomatch mem

theorem dropWhile_blank (blank : Blank cs) : cs.dropWhile isBlank = [] := by
  have all : (cs ++ []).dropWhile isBlank = [].dropWhile isBlank :=
    List.dropWhile_append_of_pos blank
  simpa using all

theorem dropWhile_eq_cons (h : cs.dropWhile isBlank = c :: ds) : isBlank c = false := by
  have first := List.head?_dropWhile_not isBlank cs
  rw [h] at first
  exact first

theorem trimEnd_append (blank : Blank after) : trimEnd (cs ++ after) = trimEnd cs := by
  unfold trimEnd
  rw [List.reverse_append, List.dropWhile_append_of_pos fun c mem => blank c (List.mem_reverse.1 mem)]

theorem trimEnd_concat (black : isBlank c = false) : trimEnd (cs ++ [c]) = cs ++ [c] := by
  simp [trimEnd, black]

theorem trimEnd_append_left (black : ∀ c ∈ cs, isBlank c = false) (ds : List Char) :
    trimEnd (cs ++ ds) = cs ++ trimEnd ds := by
  have kept : cs.reverse.dropWhile isBlank = cs.reverse := by
    cases same : cs.reverse with
    | nil => rfl
    | cons c rest =>
      have mem : c ∈ cs := List.mem_reverse.1 (same ▸ List.mem_cons_self)
      simp [black c mem]
  unfold trimEnd
  rw [List.reverse_append, List.dropWhile_append]
  split
  · rename_i empty
    rw [kept, List.isEmpty_iff.1 empty, List.reverse_reverse, List.reverse_nil, List.append_nil]
  · rw [List.reverse_append, List.reverse_reverse]

theorem trimEnd_prefix (cs : List Char) : trimEnd cs <+: cs := by
  unfold trimEnd
  rw [← List.reverse_suffix, List.reverse_reverse]
  exact List.dropWhile_suffix _

/-- Blanks at either end are trimmed. -/
theorem trim_pad (start : Blank before) (stop : Blank after) :
    trim (before ++ cs ++ after) = trim cs := by
  unfold trim
  rw [List.append_assoc, List.dropWhile_append_of_pos start, List.dropWhile_append]
  split
  · rename_i empty
    rw [List.isEmpty_iff.1 empty, dropWhile_blank stop]
  · exact trimEnd_append stop

theorem trim_cons (black : isBlank c = false) : trim (c :: cs) = trimEnd (c :: cs) := by
  simp [trim, black]

theorem trim_eq_self (first : isBlank c = false) {d : Char} (last : isBlank d = false)
    (front : List Char) (same : c :: cs = front ++ [d]) : trim (c :: cs) = c :: cs := by
  rw [trim_cons first, same, trimEnd_concat last]

theorem trim_map {f : Char → Char} (same : ∀ c, isBlank (f c) = isBlank c) :
    trim (cs.map f) = (trim cs).map f := by
  have keep : isBlank ∘ f = isBlank := funext same
  simp only [trim, trimEnd, List.dropWhile_map, ← List.map_reverse, keep]

theorem isBlank_head (trimmed : trim cs = c :: ds) : isBlank c = false := by
  unfold trim at trimmed
  obtain ⟨rest, whole⟩ := trimEnd_prefix (cs.dropWhile isBlank)
  rw [trimmed] at whole
  exact dropWhile_eq_cons whole.symm

theorem isBlank_last (trimmed : trim cs = ds ++ [c]) : isBlank c = false := by
  have backwards := congrArg List.reverse trimmed
  simp only [trim, trimEnd, List.reverse_reverse, List.reverse_append, List.reverse_singleton,
    List.singleton_append] at backwards
  exact dropWhile_eq_cons backwards

end Text

open Text

/-! ## Brackets behind a name -/

/-- Pairs of brackets, each behind the blanks of a gap. -/
def suffixes (gaps : List (List Char)) : List Char :=
  gaps.flatMap (· ++ ['[', ']'])

section Suffixes

variable {word : List Char} {gap : List Char} {gaps : List (List Char)}

theorem suffixes_cons : suffixes (gap :: gaps) = gap ++ '[' :: ']' :: suffixes gaps := by
  simp [suffixes]

theorem suffixes_concat : suffixes (gaps ++ [gap]) = suffixes gaps ++ gap ++ ['[', ']'] := by
  simp [suffixes]

theorem length_le_suffixes (gaps : List (List Char)) : gaps.length ≤ (suffixes gaps).length := by
  induction gaps with
  | nil => exact Nat.zero_le _
  | cons gap gaps ih =>
    simp only [suffixes_cons, List.length_append, List.length_cons]
    omega

/-- The last two characters are brackets. -/
theorem suffixes_last (some : gaps ≠ []) : ∃ front, suffixes gaps = front ++ ['[', ']'] := by
  rcases List.eq_nil_or_concat gaps with rfl | ⟨gaps, gap, rfl⟩
  · exact absurd rfl some
  · exact ⟨suffixes gaps ++ gap, by rw [List.concat_eq_append, suffixes_concat]⟩

/-- Brackets at the end are taken off one pair after the other, with the blanks in front of them. -/
theorem stripBrackets_go (blank : ∀ gap ∈ gaps, Blank gap) (word : List Char) (n fuel : Nat) :
    stripBrackets.go (trimEnd (word ++ suffixes gaps)).reverse n (fuel + gaps.length) =
      stripBrackets.go (trimEnd word).reverse (n + gaps.length) fuel := by
  induction gaps generalizing word fuel with
  | nil => simp [suffixes]
  | cons gap gaps ih =>
    -- the pairs behind the first are taken off by induction, with the first as part of the name
    have opened : trimEnd (word ++ gap ++ ['['] ++ [']']) = word ++ gap ++ ['['] ++ [']'] :=
      trimEnd_concat (by decide)
    have off : (gap.reverse ++ word.reverse).dropWhile isBlank = (trimEnd word).reverse := by
      rw [List.dropWhile_append_of_pos fun c mem =>
        blank gap List.mem_cons_self c (List.mem_reverse.1 mem), trimEnd, List.reverse_reverse]
    have others := ih (fun other mem => blank other (List.mem_cons_of_mem gap mem))
      (word ++ gap ++ ['['] ++ [']']) (fuel + 1)
    have whole : word ++ suffixes (gap :: gaps) = word ++ gap ++ ['['] ++ [']'] ++ suffixes gaps := by
      simp [suffixes_cons]
    have backwards : (word ++ gap ++ ['['] ++ [']']).reverse =
        ']' :: '[' :: (gap.reverse ++ word.reverse) := by simp
    rw [whole, List.length_cons, show fuel + (gaps.length + 1) = fuel + 1 + gaps.length by omega,
      others, opened, backwards, stripBrackets.go, off, Nat.add_assoc]

theorem le_stripBrackets_go (reversed : List Char) (n fuel : Nat) :
    n ≤ (stripBrackets.go reversed n fuel).2 := by
  induction fuel generalizing reversed n with
  | zero => exact Nat.le_refl n
  | succ fuel ih =>
    unfold stripBrackets.go
    split
    · have := ih (List.dropWhile isBlank ‹_›) (n + 1)
      omega
    · exact Nat.le_refl n

theorem stripBrackets_eq (blank : ∀ gap ∈ gaps, Blank gap)
    (trimmed : trimEnd (word ++ suffixes gaps) = word ++ suffixes gaps) :
    stripBrackets (word ++ suffixes gaps) =
      stripBrackets.go (trimEnd word).reverse gaps.length
        (word.length + ((suffixes gaps).length - gaps.length)) := by
  have enough := length_le_suffixes gaps
  have go := stripBrackets_go blank word 0 (word.length + ((suffixes gaps).length - gaps.length))
  rw [Nat.zero_add, trimmed, show word.length + ((suffixes gaps).length - gaps.length) + gaps.length =
    (word ++ suffixes gaps).length by rw [List.length_append]; omega] at go
  exact go

/-- No fewer pairs are taken off than there are. -/
theorem le_stripBrackets (blank : ∀ gap ∈ gaps, Blank gap)
    (trimmed : trimEnd (word ++ suffixes gaps) = word ++ suffixes gaps) :
    gaps.length ≤ (stripBrackets (word ++ suffixes gaps)).2 := by
  rw [stripBrackets_eq blank trimmed]
  exact le_stripBrackets_go _ _ _

/-- Behind a name without brackets, all pairs are taken off. -/
theorem stripBrackets_suffixes (blank : ∀ gap ∈ gaps, Blank gap) (ends : trimEnd word = word)
    (trimmed : trimEnd (word ++ suffixes gaps) = word ++ suffixes gaps) (plain : ']' ∉ word) :
    stripBrackets (word ++ suffixes gaps) = (word, gaps.length) := by
  have stop (n fuel : Nat) : stripBrackets.go word.reverse n fuel = (word, n) := by
    cases fuel with
    | zero => rw [stripBrackets.go, List.reverse_reverse]
    | succ fuel =>
      unfold stripBrackets.go
      split
      · rename_i same
        exact absurd (List.mem_reverse.1 (same ▸ List.mem_cons_self)) plain
      · rw [List.reverse_reverse]
  rw [stripBrackets_eq blank trimmed, ends, stop]

theorem trimEnd_suffixes (some : gaps ≠ []) (word : List Char) :
    trimEnd (word ++ suffixes gaps) = word ++ suffixes gaps := by
  obtain ⟨front, last⟩ := suffixes_last some
  have concat : trimEnd (word ++ front ++ ['['] ++ [']']) = word ++ front ++ ['['] ++ [']'] :=
    trimEnd_concat (by decide)
  simpa [last] using concat

/-- Trimming leaves the brackets, though it may leave nothing in front of them. -/
theorem trim_suffixes (some : gaps ≠ []) (blank : ∀ gap ∈ gaps, Blank gap) (word : List Char) :
    ∃ word' gaps', trim (word ++ suffixes gaps) = word' ++ suffixes gaps' ∧
      gaps'.length = gaps.length ∧ ∀ gap ∈ gaps', Blank gap := by
  by_cases empty : (word.dropWhile isBlank).isEmpty
  · obtain ⟨gap, gaps, rfl⟩ := List.exists_cons_of_ne_nil some
    refine ⟨[], [] :: gaps, ?_, rfl, ?_⟩
    · have first : (gap ++ '[' :: ']' :: suffixes gaps).dropWhile isBlank =
          '[' :: ']' :: suffixes gaps := by
        rw [List.dropWhile_append_of_pos (blank gap List.mem_cons_self)]
        rfl
      rw [trim, List.dropWhile_append, if_pos empty, suffixes_cons, first]
      have kept : trimEnd ([] ++ suffixes ([] :: gaps)) = [] ++ suffixes ([] :: gaps) :=
        trimEnd_suffixes (by simp) []
      simpa [suffixes_cons] using kept
    · intro other mem
      rcases List.mem_cons.1 mem with rfl | mem
      · exact blank_nil
      · exact blank other (List.mem_cons_of_mem gap mem)
  · refine ⟨word.dropWhile isBlank, gaps, ?_, rfl, blank⟩
    rw [trim, List.dropWhile_append, if_neg empty, trimEnd_suffixes some]

end Suffixes

/-! ## Types and their names -/

/-- A text can be checked character by character. -/
theorem plain_of_all {cs stops : List Char} (h : (cs.all fun c => !stops.contains c) = true) :
    ∀ c ∈ cs, c ∉ stops := fun c mem => by
  simpa using List.all_eq_true.1 h c mem

/-- A name of a class that is not the spelling of another type. -/
structure ClassName.Unambiguous (name : ClassName) : Prop where
  nonempty : name.internal.toList ≠ []
  plain : ∀ c ∈ name.internal.toList, c ∉ ['.', '[', ']', ';', '<', '>']
  trimmed : trim name.internal.toList = name.internal.toList
  keyword : JType.ofKeyword? name.internal = none
  letter : ∀ c, name.internal.toList = [c] → JType.ofCode? c = none

theorem ClassName.Unambiguous.spelled {name : ClassName} (h : name.Unambiguous) : name.Spelled where
  nonempty := h.nonempty
  plain c mem := by
    have other := h.plain c mem
    simp only [List.mem_cons, not_or] at other
    exact ⟨other.2.2.2.1, other.1⟩

namespace JType

variable {e t : JType} {n : Nat} {word cs : List Char} {gaps : List (List Char)} {text : String}

/-- A type other than an array that every spelling leads to. -/
inductive Named : JType → Prop
  | primitive (p : Primitive) : Named (.primitive p)
  | reference {name : ClassName} (h : name.Unambiguous) : Named (.reference name)

theorem Named.element (h : e.Named) : e.Element := by
  cases h with
  | primitive p => exact .primitive p
  | reference h => exact .reference h.spelled

/-- The type of so many dimensions over an element. -/
def dimensioned (n : Nat) (e : JType) : JType :=
  if n = 0 then e else .array (UInt8.ofNat n) e

theorem dimensioned_spelled (h : e.Element) (few : n ≤ 255) : (dimensioned n e).Spelled := by
  unfold dimensioned
  split
  · exact .element h
  · refine .array (fun zero => ?_) h
    have := congrArg UInt8.toNat zero
    rw [UInt8.toNat_ofNat_of_lt' (by simp only [UInt8.size]; omega)] at this
    simp at this
    omega

theorem toList_descriptor_dimensioned (few : n ≤ 255) (e : JType) :
    (dimensioned n e).descriptor.toList = List.replicate n '[' ++ e.descriptor.toList := by
  unfold dimensioned
  split
  · simp [*]
  · rw [toList_descriptor_array, UInt8.toNat_ofNat_of_lt' (by simp only [UInt8.size]; omega)]

theorem toList_sourceName_dimensioned (few : n ≤ 255) (e : JType) :
    (dimensioned n e).sourceName.toList =
      e.sourceName.toList ++ suffixes (List.replicate n []) := by
  have pairs (n : Nat) : (repeated n "[]").toList = suffixes (List.replicate n []) := by
    rw [repeated, String.toList_join]
    induction n with
    | zero => rfl
    | succ n ih => simpa [List.replicate_succ, suffixes_cons] using ih
  unfold dimensioned
  split
  · simp [*, suffixes]
  · rw [sourceName, String.toList_append, pairs,
      UInt8.toNat_ofNat_of_lt' (by simp only [UInt8.size]; omega)]

/-- The characters are a name of the type, which is no array. -/
structure IsWord (word : List Char) (e : JType) : Prop where
  nonempty : word ≠ []
  plain : ∀ c ∈ word, c ∉ ['[', ']', ';', '<', '>']
  trimmed : trim word = word
  letter : ∀ c, word = [c] → ofCode? c = none
  meant : (ofKeyword? (String.ofList word)).getD (.ofClass (String.ofList word)) = e

theorem isWord_keyword (p : Primitive) : IsWord p.keyword.toList (.primitive p) where
  nonempty := by cases p <;> decide
  plain := by cases p <;> exact plain_of_all (by decide)
  trimmed := by cases p <;> decide
  letter := by
    intro c same
    have := congrArg List.length same
    cases p <;> cases this
  meant := by cases p <;> decide

theorem isWord_internal {name : ClassName} (h : name.Unambiguous) :
    IsWord name.internal.toList (.reference name) where
  nonempty := h.nonempty
  plain c mem stop := h.plain c mem (List.mem_cons_of_mem '.' stop)
  trimmed := h.trimmed
  letter := h.letter
  meant := by
    rw [String.ofList_toList, h.keyword, Option.getD_none, ofClass, ClassName.ofText_internal h.spelled]

/-- No keyword has a dot. -/
theorem ofKeyword?_of_dot {word : String} (dot : '.' ∈ word.toList) : ofKeyword? word = none := by
  unfold ofKeyword?
  rw [if_neg (by rintro rfl; revert dot; decide), Option.map_eq_none_iff]
  refine List.find?_eq_none.2 fun p _ => ?_
  simp only [decide_eq_true_eq]
  rintro rfl
  revert dot
  cases p <;> decide

theorem toList_binary (name : ClassName) :
    name.binary.toList = name.internal.toList.map fun c => if c = '/' then '.' else c :=
  String.toList_ofList

theorem ofKeyword?_binary {name : ClassName} (h : name.Unambiguous) :
    ofKeyword? name.binary = none := by
  by_cases slash : '/' ∈ name.internal.toList
  · exact ofKeyword?_of_dot (toList_binary name ▸ List.mem_map.2 ⟨'/', slash, rfl⟩)
  · have same : name.binary = name.internal := by
      rw [← String.toList_inj, toList_binary]
      refine (List.map_congr_left fun c mem => if_neg ?_).trans (List.map_id _)
      rintro rfl
      exact slash mem
    rw [same, h.keyword]

theorem ofText_binary {name : ClassName} (h : name.Unambiguous) :
    ClassName.ofText name.binary = name := by
  have back : ∀ c ∈ name.internal.toList, ClassName.slashed (if c = '/' then '.' else c) = c := by
    intro c mem
    split
    · rename_i slash
      rw [slash]
      decide
    · refine if_neg ?_
      rintro rfl
      exact h.plain '.' mem (by decide)
  have closed : ';' ∉ name.binary.toList := by
    rw [toList_binary]
    intro mem
    obtain ⟨c, mem, same⟩ := List.mem_map.1 mem
    split at same
    · cases same
    · exact h.plain c mem (by rw [same]; decide)
  rw [ClassName.ofText_of_plain closed]
  congr 1
  rw [← String.toList_inj, String.toList_map, toList_binary, List.map_map]
  exact (List.map_congr_left back).trans (List.map_id _)

theorem isWord_binary {name : ClassName} (h : name.Unambiguous) :
    IsWord name.binary.toList (.reference name) where
  nonempty := by
    rw [toList_binary]
    exact fun none => h.nonempty (List.map_eq_nil_iff.1 none)
  plain c mem stop := by
    rw [toList_binary] at mem
    obtain ⟨d, named, rfl⟩ := List.mem_map.1 mem
    split at stop
    · exact absurd stop (by decide)
    · exact h.plain d named (List.mem_cons_of_mem '.' stop)
  trimmed := by
    have black (c : Char) : isBlank (if c = '/' then '.' else c) = isBlank c := by
      split
      · rename_i slash
        rw [slash]
        rfl
      · rfl
    rw [toList_binary, trim_map black, h.trimmed]
  letter c same := by
    rw [toList_binary] at same
    obtain ⟨d, alone, rfl⟩ := List.map_eq_singleton_iff.1 same
    split
    · decide
    · exact h.letter d alone
  meant := by
    rw [String.ofList_toList, ofKeyword?_binary h, Option.getD_none, ofClass, ofText_binary h]

/-- The name in source text is a name. -/
theorem Named.isWord (h : e.Named) : IsWord e.sourceName.toList e := by
  cases h with
  | primitive p => exact isWord_keyword p
  | reference h => exact isWord_binary h

/-! ## Reading names -/

theorem ofName_congr {text' : String} (same : trim text.toList = trim text'.toList) :
    ofName text = ofName text' := by
  unfold ofName
  rw [same]

theorem ofName_eq_ofDescriptor (trimmed : trim text.toList = cs)
    (marked : cs.head? = some '[' ∨ cs.head? = some 'L' ∧ cs.getLast? = some ';') :
    ofName text = ofDescriptor (String.ofList cs) := by
  have nonempty : cs ≠ [] := by
    rintro rfl
    simp at marked
  unfold ofName
  rw [trimmed]
  simp only [List.isEmpty_eq_false_iff.2 nonempty, Bool.false_eq_true, if_false, Bool.or_eq_true,
    Bool.and_eq_true, decide_eq_true_eq, if_pos marked]

theorem ofName_eq_spelled (trimmed : trim text.toList = cs) (nonempty : cs ≠ [])
    (first : cs.head? ≠ some '[') (last : cs.getLast? ≠ some ';')
    (letter : ∀ c, cs = [c] → ofCode? c = none) :
    ofName text = ofName.spelled (String.ofList cs) cs := by
  unfold ofName
  rw [trimmed]
  simp only [List.isEmpty_eq_false_iff.2 nonempty, Bool.false_eq_true, if_false, Bool.or_eq_true,
    Bool.and_eq_true, decide_eq_true_eq, first, last, and_false, or_false]
  split
  · rename_i c
    rw [letter c rfl]
  · rfl

theorem IsWord.trimEnd (h : IsWord word e) : trimEnd word = word := by
  rcases List.eq_nil_or_concat word with rfl | ⟨front, c, rfl⟩
  · rfl
  · rw [List.concat_eq_append]
    exact trimEnd_concat (isBlank_last (h.trimmed.trans List.concat_eq_append))

theorem IsWord.trimEnd_suffixes (h : IsWord word e) (gaps : List (List Char)) :
    Text.trimEnd (word ++ suffixes gaps) = word ++ suffixes gaps := by
  by_cases none : gaps = []
  · subst none
    simpa [suffixes] using h.trimEnd
  · exact Weft.trimEnd_suffixes none word

theorem IsWord.trim_suffixes (h : IsWord word e) (gaps : List (List Char)) :
    trim (word ++ suffixes gaps) = word ++ suffixes gaps := by
  obtain ⟨c, cs, rfl⟩ := List.exists_cons_of_ne_nil h.nonempty
  rw [List.cons_append, trim_cons (isBlank_head h.trimmed), ← List.cons_append]
  exact h.trimEnd_suffixes gaps

/-- What is read of a name behind which brackets stand. -/
theorem ofName_word (h : IsWord word e) (blank : ∀ gap ∈ gaps, Blank gap)
    (here : text.toList = word ++ suffixes gaps) :
    ofName text =
      if 255 < gaps.length then .error (.malformed .tooManyDimensions)
      else if gaps.length = 0 then .ok e
      else if e.isVoid then .error (.malformed (.arrayOfVoid text))
      else .ok (e.arrayOf (UInt8.ofNat gaps.length)) := by
  have trimmed : trim text.toList = word ++ suffixes gaps := by rw [here, h.trim_suffixes]
  have clear : ∀ c ∈ word, c ∉ ['[', ']', ';', '<', '>'] := h.plain
  have first : (word ++ suffixes gaps).head? ≠ some '[' := by
    rw [List.head?_append_of_ne_nil _ h.nonempty]
    intro bracket
    exact clear '[' (List.mem_of_head? bracket) (by decide)
  have last : (word ++ suffixes gaps).getLast? ≠ some ';' := by
    by_cases none : gaps = []
    · subst none
      intro semicolon
      exact clear ';' (List.mem_of_getLast? (by simpa [suffixes] using semicolon)) (by decide)
    · obtain ⟨front, ends⟩ := suffixes_last none
      simp [ends]
  have letter : ∀ c, word ++ suffixes gaps = [c] → ofCode? c = none := by
    intro c same
    refine h.letter c ?_
    by_cases none : gaps = []
    · subst none
      simpa [suffixes] using same
    · obtain ⟨front, ends⟩ := suffixes_last none
      have := congrArg List.length same
      simp [ends] at this
      omega
  have stripped : stripBrackets (word ++ suffixes gaps) = (word, gaps.length) :=
    stripBrackets_suffixes blank h.trimEnd (h.trimEnd_suffixes gaps) fun mem =>
      clear ']' mem (by decide)
  have legal : ¬ (word.isEmpty || word.any fun c => ['[', ']', ';', '<', '>'].contains c) = true := by
    simp only [Bool.or_eq_true, List.isEmpty_iff, List.any_eq_true, List.contains_iff_mem, not_or]
    exact ⟨h.nonempty, fun ⟨c, mem, stop⟩ => clear c mem stop⟩
  rw [ofName_eq_spelled trimmed (by simp [h.nonempty]) first last letter, ← here,
    String.ofList_toList, here]
  unfold ofName.spelled
  simp only [stripped, if_neg legal, h.meant]

/-! ## Reading descriptors -/

/-- The descriptor of a type that is no array has neither brackets nor blanks at its ends. -/
theorem descriptor_ends (flat : ∀ n t, e ≠ .array n t) : ∃ c cs front d,
    e.descriptor.toList = c :: cs ∧ e.descriptor.toList = front ++ [d] ∧
      (c ≠ '[' ∧ isBlank c = false) ∧ d ≠ ']' ∧ isBlank d = false := by
  cases e with
  | void => exact ⟨'V', [], [], 'V', rfl, rfl, by decide, by decide⟩
  | primitive p =>
    refine ⟨p.code, [], [], p.code, String.toList_singleton _, String.toList_singleton _, ?_⟩
    cases p <;> decide
  | reference name =>
    have text := toList_descriptor_reference name
    exact ⟨'L', _, 'L' :: name.internal.toList, ';', text, text, by decide, by decide⟩
  | array n t => exact absurd rfl (flat n t)

theorem Element.flat (h : e.Element) : ∀ n t, e ≠ .array n t := by
  cases h <;> nofun

/-- The brackets in front tell nothing of what stands behind them. -/
theorem eq_of_brackets {m : Nat} {c d : Char} {ds : List Char} (other : c ≠ '[') (other' : d ≠ '[')
    (same : List.replicate m '[' ++ c :: cs = List.replicate n '[' ++ d :: ds) :
    c :: cs = d :: ds := by
  have behind (k : Nat) {c : Char} {cs : List Char} (other : c ≠ '[') :
      (List.replicate k '[' ++ c :: cs).dropWhile (· = '[') = c :: cs := by
    rw [List.dropWhile_append_of_pos fun d mem => by simp [List.eq_of_mem_replicate mem]]
    simp [other]
  rw [← behind m other, same, behind n other']

/-- A type whose descriptor has brackets in front of another character is over an element whose
descriptor begins there. -/
theorem Spelled.split (h : t.Spelled) {c : Char}
    (text : t.descriptor.toList = List.replicate n '[' ++ c :: cs) (other : c ≠ '[') :
    ∃ e : JType, e.Element ∧ e.descriptor.toList = c :: cs := by
  cases h with
  | element h =>
    obtain ⟨d, ds, -, -, begins, -, ⟨other', -⟩, -⟩ := descriptor_ends h.flat
    have text : List.replicate 0 '[' ++ d :: ds = List.replicate n '[' ++ c :: cs := begins ▸ text
    exact ⟨t, h, begins.trans (eq_of_brackets other' other text)⟩
  | @array m e some h =>
    obtain ⟨d, ds, -, -, begins, -, ⟨other', -⟩, -⟩ := descriptor_ends h.flat
    rw [toList_descriptor_array, begins] at text
    exact ⟨e, h, begins.trans (eq_of_brackets other' other text)⟩

/-- Every descriptor ends in a character that is neither a bracket nor a blank. -/
theorem Spelled.last (h : t.Spelled) : ∃ front d, t.descriptor.toList = front ++ [d] ∧ d ≠ ']' := by
  cases h with
  | element h =>
    obtain ⟨-, -, front, d, -, ends, -, other, -⟩ := descriptor_ends h.flat
    exact ⟨front, d, ends, other⟩
  | @array n e some h =>
    obtain ⟨-, -, front, d, -, ends, -, other, -⟩ := descriptor_ends h.flat
    exact ⟨List.replicate n.toNat '[' ++ front, d, by
      rw [toList_descriptor_array, ends, List.append_assoc], other⟩

theorem trim_descriptor (flat : ∀ n t, e ≠ .array n t) (n : Nat) :
    trim (List.replicate n '[' ++ e.descriptor.toList) =
      List.replicate n '[' ++ e.descriptor.toList := by
  obtain ⟨c, cs, front, d, begins, ends, ⟨-, black⟩, -, black'⟩ := descriptor_ends flat
  cases n with
  | zero =>
    rw [List.replicate_zero, List.nil_append, begins]
    exact trim_eq_self black black' front (begins ▸ ends)
  | succ n =>
    refine trim_eq_self (by decide) black' (List.replicate (n + 1) '[' ++ front) ?_
    rw [ends, List.append_assoc]
    rfl

/-- The characters are read as a descriptor. -/
def IsMarked (cs : List Char) : Prop :=
  cs.head? = some '[' ∨ cs.head? = some 'L' ∧ cs.getLast? = some ';'

theorem isMarked_reference (name : ClassName) (n : Nat) :
    IsMarked (List.replicate n '[' ++ (reference name).descriptor.toList) := by
  cases n with
  | zero =>
    have last : ('L' :: name.internal.toList ++ [';']).getLast? = some ';' := List.getLast?_concat
    rw [List.replicate_zero, List.nil_append, toList_descriptor_reference]
    exact .inr ⟨rfl, last⟩
  | succ n => exact .inl rfl

theorem isMarked_bracket (some : 0 < n) (cs : List Char) : IsMarked (List.replicate n '[' ++ cs) := by
  cases n with
  | zero => exact absurd some (Nat.lt_irrefl 0)
  | succ n => exact .inl rfl

/-- Descriptors are read. -/
theorem ofName_descriptor (h : e.Element) (few : n ≤ 255)
    (here : text.toList = List.replicate n '[' ++ e.descriptor.toList) :
    ofName text = .ok (dimensioned n e) := by
  have trimmed : trim text.toList = text.toList := by rw [here, trim_descriptor h.flat]
  have marked (marked : IsMarked text.toList) : ofName text = .ok (dimensioned n e) := by
    rw [ofName_eq_ofDescriptor trimmed marked, String.ofList_toList]
    have printed : text = (dimensioned n e).descriptor :=
      String.toList_inj.1 (here.trans (toList_descriptor_dimensioned few e).symm)
    rw [printed, ofDescriptor_descriptor (dimensioned_spelled h few)]
  rcases Nat.eq_zero_or_pos n with rfl | some
  · cases h with
    | primitive p =>
      have letter : trim text.toList = [p.code] := by
        rw [trimmed, here]
        exact String.toList_singleton _
      unfold ofName
      rw [letter]
      cases p <;> rfl
    | reference h => exact marked (here ▸ isMarked_reference _ 0)
  · exact marked (here ▸ isMarked_bracket some _)

/-! ## What is rejected -/

/-- No type is read of the text. -/
def Rejects (text : String) : Prop := ∃ err, ofName text = .error err

theorem rejects_of_not_ok (none : ∀ t, ofName text ≠ .ok t) : Rejects text := by
  cases read : ofName text with
  | error err => exact ⟨err, read⟩
  | ok t => exact absurd read (none t)

/-- What is read of a text that is marked as a descriptor is printed as the text. -/
theorem of_ofName_marked (trimmed : trim text.toList = cs) (marked : IsMarked cs)
    (read : ofName text = .ok t) :
    t.Spelled ∧ t.descriptor.toList = cs.map ClassName.slashed := by
  rw [ofName_eq_ofDescriptor trimmed marked] at read
  refine ⟨spelled_of_ofDescriptor read, ?_⟩
  rw [← map_slashed_of_ofDescriptor read, String.toList_map, String.toList_ofList]

/-- Brackets in front do not go with brackets behind. -/
theorem rejects_brackets (trimmed : trim text.toList = cs) (first : cs.head? = some '[')
    (front : List Char) (last : cs = front ++ [']']) : Rejects text := by
  refine rejects_of_not_ok fun t read => ?_
  obtain ⟨spelled, printed⟩ := of_ofName_marked trimmed (.inl first) read
  obtain ⟨front', d, ends, other⟩ := spelled.last
  rw [ends, last, List.map_append] at printed
  have same : [d] = [']'] := List.append_inj_right' printed rfl
  cases same
  exact other rfl

theorem rejects_overlong (many : 255 < n) (here : text.toList = List.replicate n '[' ++ cs) :
    Rejects text := by
  have black : ∀ c ∈ List.replicate n '[', isBlank c = false := fun c mem => by
    rw [List.eq_of_mem_replicate mem]
    rfl
  have trimmed : trim text.toList = List.replicate n '[' ++ trimEnd cs := by
    rw [← trimEnd_append_left black, here]
    obtain ⟨m, rfl⟩ := Nat.exists_eq_succ_of_ne_zero (show n ≠ 0 by omega)
    exact trim_cons rfl
  have refused := ofDescriptor_overlong many
    (String.toList_ofList (l := List.replicate n '[' ++ trimEnd cs))
  exact ⟨_, (ofName_eq_ofDescriptor trimmed (isMarked_bracket (by omega) _)).trans refused⟩

/-- Too many brackets behind a text are rejected, whatever the text. -/
theorem rejects_suffixes (many : 255 < gaps.length) (blank : ∀ gap ∈ gaps, Blank gap)
    (here : text.toList = word ++ suffixes gaps) : Rejects text := by
  have nonempty : gaps ≠ [] := by
    rintro rfl
    exact absurd many (by decide)
  obtain ⟨word', gaps', trimmed, count, blank'⟩ := trim_suffixes nonempty blank word
  rw [← here] at trimmed
  have nonempty' : gaps' ≠ [] := by
    rintro rfl
    exact nonempty (List.length_eq_zero_iff.1 count.symm)
  obtain ⟨front, ends⟩ := suffixes_last nonempty'
  by_cases first : (word' ++ suffixes gaps').head? = some '['
  · -- the text is taken for a descriptor, and none ends in a bracket
    refine rejects_brackets trimmed first (word' ++ front ++ ['[']) ?_
    simp [ends]
  · have stripped := le_stripBrackets blank' (Weft.trimEnd_suffixes nonempty' word')
    have letter : ∀ c, word' ++ suffixes gaps' = [c] → ofCode? c = none := by
      intro c same
      have := congrArg List.length same
      simp [ends] at this
      omega
    have refused : ofName.spelled (String.ofList (word' ++ suffixes gaps')) (word' ++ suffixes gaps') =
        .error (.malformed .tooManyDimensions) := by
      have counted : 255 < (stripBrackets (word' ++ suffixes gaps')).2 := by omega
      unfold ofName.spelled
      exact if_pos counted
    have plain := ofName_eq_spelled trimmed (by simp [ends]) first (by simp [ends]) letter
    exact ⟨_, plain.trans refused⟩

/-- What stands for a class without a name is rejected. -/
theorem rejects_unnamed (blank : ∀ gap ∈ gaps, Blank gap) (here : text.toList = suffixes gaps) :
    Rejects text := by
  cases gaps with
  | nil =>
    have empty : trim text.toList = [] := by rw [here]; rfl
    refine ⟨.malformed .emptyTypeName, ?_⟩
    unfold ofName
    rw [empty]
    rfl
  | cons gap gaps =>
    obtain ⟨front, ends⟩ := suffixes_last (List.cons_ne_nil [] gaps)
    have kept : trimEnd ([] ++ suffixes ([] :: gaps)) = [] ++ suffixes ([] :: gaps) :=
      trimEnd_suffixes (List.cons_ne_nil [] gaps) []
    have trimmed : trim text.toList = suffixes ([] :: gaps) := by
      have padded : text.toList = gap ++ suffixes ([] :: gaps) ++ [] := by
        rw [here, suffixes_cons, suffixes_cons, List.append_nil, List.nil_append]
      have first : trim (suffixes ([] :: gaps)) = trimEnd (suffixes ([] :: gaps)) := trim_cons rfl
      rw [padded, trim_pad (blank gap List.mem_cons_self) blank_nil, first]
      exact kept
    refine rejects_brackets trimmed rfl (front ++ ['[']) ?_
    simp [ends]

theorem Element.descriptor_ne (h : e.Element) :
    e.descriptor.toList ≠ ['L', ';'] ∧ e.descriptor.toList ≠ ['V'] := by
  cases h with
  | primitive p => cases p <;> decide
  | @reference name spelled =>
    rw [toList_descriptor_reference]
    simpa using spelled.nonempty

/-- No descriptor is that of a class without a name or of an array over `void`. -/
theorem rejects_descriptor (bad : e = .reference ⟨""⟩ ∨ e = .void ∧ 0 < n)
    (here : text.toList = List.replicate n '[' ++ e.descriptor.toList) : Rejects text := by
  have flat : ∀ n t, e ≠ .array n t := by
    rcases bad with rfl | ⟨rfl, -⟩ <;> nofun
  have marked : IsMarked text.toList := by
    rcases bad with rfl | ⟨rfl, pos⟩
    · exact here ▸ isMarked_reference _ n
    · exact here ▸ isMarked_bracket pos _
  have trimmed : trim text.toList = text.toList := by rw [here, trim_descriptor flat]
  refine rejects_of_not_ok fun t read => ?_
  obtain ⟨spelled, printed⟩ := of_ofName_marked trimmed marked read
  rw [here, List.map_append, List.map_replicate] at printed
  rcases bad with rfl | ⟨rfl, -⟩
  · obtain ⟨e, element, same⟩ := spelled.split printed (by decide)
    exact element.descriptor_ne.1 same
  · obtain ⟨e, element, same⟩ := spelled.split printed (by decide)
    exact element.descriptor_ne.2 same

/-- The word for `void` is a name. -/
theorem isWord_void : IsWord "void".toList .void where
  nonempty := by decide
  plain := plain_of_all (by decide)
  trimmed := by decide
  letter c same := by
    have := congrArg List.length same
    cases this
  meant := by decide

theorem rejects_void (pos : 0 < gaps.length) (blank : ∀ gap ∈ gaps, Blank gap)
    (here : text.toList = "void".toList ++ suffixes gaps) : Rejects text := by
  unfold Rejects
  rw [ofName_word isWord_void blank here]
  split
  · exact ⟨_, rfl⟩
  · exact ⟨_, (if_neg (Nat.ne_of_gt pos)).trans (if_pos rfl)⟩

/-! ## Spellings -/

/-- The spellings of so many dimensions over a type that is no array. -/
inductive Spelling (e : JType) : Nat → List Char → Prop
  | descriptor (n : Nat) : Spelling e n (List.replicate n '[' ++ e.descriptor.toList)
  | sourceName {gaps : List (List Char)} (blank : ∀ gap ∈ gaps, Blank gap) :
    Spelling e gaps.length (e.sourceName.toList ++ suffixes gaps)
  | internal {name : ClassName} {gaps : List (List Char)} (same : e = .reference name)
    (blank : ∀ gap ∈ gaps, Blank gap) :
    Spelling e gaps.length (name.internal.toList ++ suffixes gaps)
  | padded {n : Nat} {cs before after : List Char} (start : Blank before) (stop : Blank after)
    (h : Spelling e n cs) : Spelling e n (before ++ cs ++ after)

theorem ofName_pad {before after : List Char} (start : Blank before) (stop : Blank after)
    (cs : List Char) : ofName (String.ofList (before ++ cs ++ after)) = ofName (String.ofList cs) :=
  ofName_congr (by rw [String.toList_ofList, String.toList_ofList, trim_pad start stop])

theorem ofName_of_isWord (h : IsWord word e) (value : e.isVoid = false)
    (flat : ∀ n t, e ≠ .array n t) (few : gaps.length ≤ 255) (blank : ∀ gap ∈ gaps, Blank gap)
    (here : text.toList = word ++ suffixes gaps) : ofName text = .ok (dimensioned gaps.length e) := by
  rw [ofName_word h blank here, if_neg (by omega)]
  unfold dimensioned
  split
  · rfl
  · rw [value]
    cases e with
    | array n t => exact absurd rfl (flat n t)
    | _ => rfl

theorem Named.ofName_of_spelling (h : e.Named) (few : n ≤ 255) (spelling : e.Spelling n cs) :
    ofName (String.ofList cs) = .ok (dimensioned n e) := by
  have value : e.isVoid = false := by cases h <;> rfl
  induction spelling with
  | descriptor n => exact ofName_descriptor h.element few (String.toList_ofList)
  | sourceName blank =>
    exact ofName_of_isWord h.isWord value h.element.flat few blank String.toList_ofList
  | internal same blank =>
    subst same
    cases h with
    | reference named =>
      exact ofName_of_isWord (isWord_internal named) rfl nofun few blank String.toList_ofList
  | padded start stop _ ih => rw [ofName_pad start stop, ih few]

/-- A type that cannot be: it has too many dimensions, no name, or an element `void`. -/
def Impossible (n : Nat) (e : JType) : Prop :=
  255 < n ∨ e = .reference ⟨""⟩ ∨ e = .void ∧ 0 < n

theorem Impossible.rejects (h : Impossible n e) (spelling : e.Spelling n cs) :
    Rejects (String.ofList cs) := by
  induction spelling with
  | descriptor n =>
    rcases h with many | bad
    · exact rejects_overlong many String.toList_ofList
    · exact rejects_descriptor bad String.toList_ofList
  | sourceName blank =>
    rcases h with many | rfl | ⟨rfl, pos⟩
    · exact rejects_suffixes many blank String.toList_ofList
    · exact rejects_unnamed blank String.toList_ofList
    · exact rejects_void pos blank String.toList_ofList
  | internal same blank =>
    subst same
    rcases h with many | unnamed | ⟨void, -⟩
    · exact rejects_suffixes many blank String.toList_ofList
    · cases unnamed
      exact rejects_unnamed blank String.toList_ofList
    · cases void
  | padded start stop _ ih =>
    obtain ⟨err, refused⟩ := ih h
    exact ⟨err, (ofName_pad start stop _).trans refused⟩

/-- All spellings of a type are read as that type, among them the two that are printed for it.
Blanks around a text never change what is read, and brackets that are too many to be counted are
never read. Of a type that cannot be no spelling is read. -/
theorem ofName_spellings :
    (∀ e n cs, Named e → n ≤ 255 → Spelling e n cs →
        ofName (String.ofList cs) = .ok (dimensioned n e)) ∧
      (∀ e n, Named e → n ≤ 255 →
        ofName (dimensioned n e).descriptor = .ok (dimensioned n e) ∧
          ofName (dimensioned n e).sourceName = .ok (dimensioned n e)) ∧
      (∀ before cs after, Blank before → Blank after →
        ofName (String.ofList (before ++ cs ++ after)) = ofName (String.ofList cs)) ∧
      (∀ word gaps, 255 < gaps.length → (∀ gap ∈ gaps, Blank gap) →
        Rejects (String.ofList (word ++ suffixes gaps))) ∧
      ∀ e n cs, Spelling e n cs → Impossible n e → Rejects (String.ofList cs) := by
  refine ⟨fun e n cs named few => named.ofName_of_spelling few, fun e n named few => ⟨?_, ?_⟩,
    fun before cs after start stop => ofName_pad start stop cs,
    fun word gaps many blank => rejects_suffixes many blank String.toList_ofList,
    fun e n cs spelling impossible => impossible.rejects spelling⟩
  · exact ofName_descriptor named.element few (toList_descriptor_dimensioned few e)
  · have count : (List.replicate n ([] : List Char)).length = n := List.length_replicate
    have read := ofName_of_isWord named.isWord (by cases named <;> rfl) named.element.flat
      (count.symm ▸ few) (fun gap mem => List.eq_of_mem_replicate mem ▸ blank_nil)
      (toList_sourceName_dimensioned few e)
    rwa [count] at read

theorem named_string : Named .string :=
  .reference {
    nonempty := by decide
    plain := plain_of_all (by decide)
    trimmed := by decide
    keyword := by decide
    letter := fun c same => by cases congrArg List.length same }

/-- An array of two dimensions in three spellings, too many dimensions, and an array over `void`. -/
theorem ofName_spellings_string :
    ofName " java/lang/String [][] " = .ok (.array 2 .string) ∧
      ofName "[[Ljava/lang/String;" = .ok (.array 2 .string) ∧
      ofName "java.lang.String[][]" = .ok (.array 2 .string) ∧
      Rejects (String.ofList ("int".toList ++ suffixes (List.replicate 256 []))) ∧
      Rejects "[V" := by
  obtain ⟨read, printed, -, overlong, rejected⟩ := ofName_spellings
  have blank : ∀ gap ∈ [[' '], []], Blank gap := by simp [Blank, isBlank]
  have pad : Blank [' '] := blank _ List.mem_cons_self
  have internal := Spelling.internal (e := .string) rfl blank
  refine ⟨read _ _ _ named_string (by decide) (.padded pad pad internal),
    (printed _ 2 named_string (by decide)).1, (printed _ 2 named_string (by decide)).2, ?_, ?_⟩
  · refine overlong _ _ (by rw [List.length_replicate]; decide) fun gap mem => ?_
    exact List.eq_of_mem_replicate mem ▸ blank_nil
  · exact rejected .void 1 _ (.descriptor 1) (.inr (.inr ⟨rfl, by decide⟩))

end JType

end Weft
