import Weft.Proofs.Text.ModifiedUtf8

/-!
# Plain UTF-8 where modified UTF-8 is expected

Bytes that are well-formed UTF-8 without zero bytes are taken as they stand, all others unit by
unit. Where every character has a form of at most three bytes both ways give the same text. The two
part over the form of four bytes, which modified UTF-8 does not have: it is taken as it stands, and
refused as soon as a zero byte, or anything else that is not plain, stands elsewhere.
-/

namespace Weft.Text

/-! ## Characters of forms -/

theorem toNat_ofNat_char {n : Nat} (valid : n < 0xD800 ∨ 0xDFFF < n ∧ n < 0x110000) :
    (Char.ofNat n).toNat = n := by
  have valid : n.isValidChar := valid
  rw [Char.ofNat, dif_pos valid]
  rfl

theorem decodeUtf8?_go_flatMap (cs acc : List Char) :
    decodeUtf8?.go (cs.flatMap String.utf8EncodeChar) acc = some (acc.reverse ++ cs) := by
  induction cs generalizing acc with
  | nil => simp [decodeUtf8?.go]
  | cons c cs ih =>
    rw [List.flatMap_cons, decodeUtf8?_go_utf8EncodeChar, ih]
    simp

theorem utf8EncodeChar_of_low {a : UInt8} (low : a.toNat < 0x80) :
    String.utf8EncodeChar (Char.ofNat a.toNat) = [a] := by
  have code := toNat_ofNat_char (n := a.toNat) (by omega)
  obtain ⟨a', written, ha⟩ := utf8EncodeChar_one (c := Char.ofNat a.toNat) (by omega)
  obtain rfl : a' = a := UInt8.toNat_inj.1 (by omega)
  exact written

theorem utf8EncodeChar_of_isPair {a b : UInt8} (pair : isPair a b = true) :
    String.utf8EncodeChar (Char.ofNat (a.toNat % 32 * 64 + six b)) = [a, b] := by
  have form := (isPair_iff a b).1 pair
  generalize value : a.toNat % 32 * 64 + six b = n
  rw [six] at value
  have code := toNat_ofNat_char (n := n) (by omega)
  obtain ⟨a', b', written, ha, hb⟩ := utf8EncodeChar_two (c := Char.ofNat n) (by omega) (by omega)
  obtain rfl : a' = a := UInt8.toNat_inj.1 (by omega)
  obtain rfl : b' = b := UInt8.toNat_inj.1 (by omega)
  exact written

theorem utf8EncodeChar_of_isTriple {a b d : UInt8} (triple : isTriple a b d = true) :
    String.utf8EncodeChar (Char.ofNat (a.toNat % 16 * 4096 + six b * 64 + six d)) = [a, b, d] := by
  obtain ⟨least, most, hb, hd, some, valid⟩ := (isTriple_iff a b d).1 triple
  generalize value : a.toNat % 16 * 4096 + six b * 64 + six d = n
  rw [six, six] at value
  have code := toNat_ofNat_char (n := n) (by omega)
  have large : 0x800 ≤ n := by omega
  -- the digits of the code do not depend on the two exceptions
  clear some valid
  obtain ⟨a', b', d', written, first, second, third⟩ :=
    utf8EncodeChar_three (c := Char.ofNat n) (by omega) (by omega)
  obtain rfl : a' = a := UInt8.toNat_inj.1 (by omega)
  obtain rfl : b' = b := UInt8.toNat_inj.1 (by omega)
  obtain rfl : d' = d := UInt8.toNat_inj.1 (by omega)
  exact written

theorem utf8EncodeChar_of_isQuadruple {a b d e : UInt8} (quadruple : isQuadruple a b d e = true) :
    String.utf8EncodeChar
        (Char.ofNat (a.toNat % 8 * 262144 + six b * 4096 + six d * 64 + six e)) = [a, b, d, e] := by
  obtain ⟨least, most, hb, hd, he, some, valid⟩ := (isQuadruple_iff a b d e).1 quadruple
  generalize value : a.toNat % 8 * 262144 + six b * 4096 + six d * 64 + six e = n
  rw [six, six, six] at value
  have code := toNat_ofNat_char (n := n) (by omega)
  have large : 0x10000 ≤ n := by omega
  clear some valid
  obtain ⟨a', b', d', e', written, first, second, third, fourth⟩ :=
    utf8EncodeChar_four (c := Char.ofNat n) (by omega)
  -- the lead byte by itself: the other bytes only add divisions
  have lead : a'.toNat = a.toNat := by
    clear second third fourth
    omega
  obtain rfl : a' = a := UInt8.toNat_inj.1 lead
  obtain rfl : b' = b := UInt8.toNat_inj.1 (by omega)
  obtain rfl : d' = d := UInt8.toNat_inj.1 (by omega)
  obtain rfl : e' = e := UInt8.toNat_inj.1 (by omega)
  exact written

theorem decodeUtf8?_go_eq_some {bs : Bytes} {acc out : List Char}
    (h : decodeUtf8?.go bs acc = some out) :
    ∃ cs, out = acc.reverse ++ cs ∧ bs = cs.flatMap String.utf8EncodeChar := by
  have next {c : Char} {rest front : Bytes} {acc : List Char}
      (form : String.utf8EncodeChar c = front)
      (ih : ∃ cs, out = (c :: acc).reverse ++ cs ∧ rest = cs.flatMap String.utf8EncodeChar) :
      ∃ cs, out = acc.reverse ++ cs ∧ front ++ rest = cs.flatMap String.utf8EncodeChar := by
    obtain ⟨cs, rfl, rfl⟩ := ih
    refine ⟨c :: cs, by simp, ?_⟩
    rw [List.flatMap_cons, form]
  fun_induction decodeUtf8?.go bs acc with
  | case1 acc =>
    cases h
    exact ⟨[], by simp⟩
  | case2 a rest acc low ih =>
    exact next (utf8EncodeChar_of_low (UInt8.lt_iff_toNat_lt.1 low)) (ih h)
  | case4 a acc large b rest pair ih => exact next (utf8EncodeChar_of_isPair pair) (ih h)
  | case6 a acc large b not_pair d rest triple ih =>
    exact next (utf8EncodeChar_of_isTriple triple) (ih h)
  | case8 a acc large b not_pair d not_triple e rest quadruple ih =>
    exact next (utf8EncodeChar_of_isQuadruple quadruple) (ih h)
  | _ => cases h

/-- Well-formed UTF-8 is what its characters are written as, and nothing else. -/
theorem decodeUtf8?_eq_some_iff {bs : Bytes} {cs : List Char} :
    decodeUtf8? bs = some cs ↔ bs = cs.flatMap String.utf8EncodeChar := by
  constructor
  · intro h
    obtain ⟨cs', rfl, written⟩ := decodeUtf8?_go_eq_some h
    exact written
  · rintro rfl
    exact decodeUtf8?_go_flatMap cs []

/-! ## Both ways -/

/-- Plain UTF-8 of the text, without zero bytes, in which a character has a form of four bytes. -/
structure FourByteForms (s : String) (bs : Bytes) : Prop where
  plain : bs = s.toList.flatMap String.utf8EncodeChar
  some : ∀ c ∈ s.toList, c ≠ '\x00'
  four : ∃ c ∈ s.toList, 0x10000 ≤ c.toNat

/-- A byte of a character is zero just if the character is. -/
theorem zero_mem_utf8EncodeChar (c : Char) : 0 ∈ String.utf8EncodeChar c ↔ c = '\x00' := by
  have zero : c = '\x00' ↔ c.toNat = 0 := Char.toNat_inj.symm
  have byte (a : UInt8) : 0 = a ↔ a.toNat = 0 := by
    rw [← UInt8.toNat_inj, eq_comm]
    simp
  rw [zero]
  by_cases one : c.toNat ≤ 0x7F
  · obtain ⟨a, written, ha⟩ := utf8EncodeChar_one one
    simp only [written, List.mem_singleton, byte, ha]
  by_cases two : c.toNat ≤ 0x7FF
  · obtain ⟨a, b, written, ha, hb⟩ := utf8EncodeChar_two (by omega) two
    simp only [written, List.mem_cons, List.not_mem_nil, or_false, byte, ha, hb]
    omega
  by_cases three : c.toNat ≤ 0xFFFF
  · obtain ⟨a, b, d, written, ha, hb, hd⟩ := utf8EncodeChar_three (by omega) three
    simp only [written, List.mem_cons, List.not_mem_nil, or_false, byte, ha, hb, hd]
    omega
  · obtain ⟨a, b, d, e, written, ha, hb, hd, he⟩ := utf8EncodeChar_four (c := c) (by omega)
    simp only [written, List.mem_cons, List.not_mem_nil, or_false, byte, ha, hb, hd, he]
    omega

/-- The plain form of a text has a zero byte just if the text has a zero character. -/
theorem zero_mem_plain (cs : List Char) :
    0 ∈ cs.flatMap String.utf8EncodeChar ↔ '\x00' ∈ cs := by
  simp [List.mem_flatMap, zero_mem_utf8EncodeChar]

/-- Characters of at most three bytes have the same units either way. -/
theorem decodeByUnits_plain {s : String} (uniform : ∀ c ∈ s.toList, isUniform c = true) :
    decodeByUnits (s.toList.flatMap String.utf8EncodeChar) = .ok s := by
  have written : encodeByUnits s = s.toList.flatMap String.utf8EncodeChar := by
    rw [← encodeModified_eq, encodeModified, if_pos (List.all_eq_true.2 uniform)]
  rw [← written]
  exact decodeByUnits_encode s

theorem decodeUnits_go_units (us : List UInt16) (rest : Bytes) (i : Nat) (acc : List UInt16) :
    ∃ j, decodeUnits.go (us.flatMap encodeUnit ++ rest) i acc =
      decodeUnits.go rest j (us.reverse ++ acc) := by
  induction us generalizing i acc with
  | nil => exact ⟨i, rfl⟩
  | cons u us ih =>
    obtain ⟨j, later⟩ := ih (i + (encodeUnit u).length) (u :: acc)
    refine ⟨j, ?_⟩
    rw [List.flatMap_cons, List.append_assoc, decodeUnits_go_encodeUnit, later]
    simp

/-- The units end at the first form of four bytes. -/
theorem decodeUnits_go_four {cs : List Char} (some : ∀ c ∈ cs, c ≠ '\x00')
    (four : ∃ c ∈ cs, 0x10000 ≤ c.toNat) (i : Nat) (acc : List UInt16) :
    ∃ lead : UInt8, 0xF0 ≤ lead ∧
      decodeUnits.go (cs.flatMap String.utf8EncodeChar) i acc = .error (.textLead lead) := by
  induction cs generalizing i acc with
  | nil => simp at four
  | cons c cs ih =>
    rw [List.flatMap_cons]
    by_cases small : c.toNat < 0x10000
    · have uniform := (isUniform_iff c).2 ⟨some c List.mem_cons_self, small⟩
      have later : ∃ c ∈ cs, 0x10000 ≤ c.toNat := by
        obtain ⟨d, mem, large⟩ := four
        rcases List.mem_cons.1 mem with rfl | mem
        · omega
        · exact ⟨d, mem, large⟩
      obtain ⟨j, passed⟩ := decodeUnits_go_units (unitsOfChar c)
        (cs.flatMap String.utf8EncodeChar) i acc
      rw [utf8EncodeChar_of_isUniform uniform, encodeChar, passed]
      exact ih (fun d mem => some d (List.mem_cons_of_mem c mem)) later _ _
    · obtain ⟨a, b, d, e, written, ha, -⟩ := utf8EncodeChar_four (c := c) (by omega)
      have valid := char_valid c
      have large : ¬ a < 0x80 := not_lt_of_high (by omega)
      have not_two : (a &&& 0xE0 == 0xC0) = false := by
        rw [← Bool.not_eq_true, lead_two_iff]
        omega
      have not_three : (a &&& 0xF0 == 0xE0) = false := by
        rw [← Bool.not_eq_true, lead_three_iff]
        omega
      refine ⟨a, ?_, ?_⟩
      · rw [UInt8.le_iff_toNat_le]
        simp
        omega
      · rw [written, List.cons_append, decodeUnits.go.eq_def]
        simp only [large, if_false, not_two, not_three, Bool.false_eq_true]

/-- What each way makes of a form of four bytes. -/
theorem FourByteForms.decoded {s : String} {bs : Bytes} (h : FourByteForms s bs) :
    decodeModified bs = .ok s ∧
      ∃ lead : UInt8, 0xF0 ≤ lead ∧ decodeByUnits bs = .error (.textLead lead) := by
  obtain ⟨rfl, some, four⟩ := h
  constructor
  · have no_zero : (s.toList.flatMap String.utf8EncodeChar).contains 0 = false := by
      rw [← Bool.not_eq_true, List.contains_iff_mem, zero_mem_plain]
      exact fun mem => some _ mem rfl
    rw [decodeModified, decodeUtf8?_eq_some_iff.2 rfl, no_zero]
    simp
  · obtain ⟨lead, large, refused⟩ := decodeUnits_go_four some four 0 []
    refine ⟨lead, large, ?_⟩
    rw [decodeByUnits, decodeUnits, refused]
    rfl

/-- Decoding agrees with decoding unit by unit on all bytes but plain UTF-8 with a form of four
bytes and without zero bytes. That is taken as the text it stands for, and refused unit by unit. -/
theorem decodeModified_eq_decodeByUnits_iff (bs : Bytes) :
    decodeModified bs = decodeByUnits bs ↔ ∀ s, ¬ FourByteForms s bs := by
  constructor
  · intro same s forms
    obtain ⟨taken, lead, -, refused⟩ := forms.decoded
    rw [taken, refused] at same
    cases same
  · intro none
    unfold decodeModified
    cases decoded : decodeUtf8? bs with
    | none => rfl
    | some cs =>
      obtain rfl := decodeUtf8?_eq_some_iff.1 decoded
      dsimp only
      split
      · rfl
      · rename_i no_zero
        rw [List.contains_iff_mem, zero_mem_plain] at no_zero
        have some : ∀ c ∈ cs, c ≠ '\x00' := by
          rintro c mem rfl
          exact no_zero mem
        have uniform : ∀ c ∈ cs, isUniform c = true := by
          intro c mem
          rw [isUniform_iff]
          refine ⟨some c mem, ?_⟩
          by_contra large
          apply none (String.ofList cs)
          refine ⟨?_, ?_, c, ?_, Nat.not_lt.1 large⟩
          · rw [String.toList_ofList]
          · rwa [String.toList_ofList]
          · rwa [String.toList_ofList]
        have taken := decodeByUnits_plain (s := String.ofList cs) (by simpa using uniform)
        rw [String.toList_ofList] at taken
        exact taken.symm

/-! ## Bytes elsewhere -/

/-- Units that are read are the same in front of any bytes and behind any units. -/
theorem decodeUnits_go_split {xs : Bytes} {i : Nat} {acc out : List UInt16}
    (h : decodeUnits.go xs i acc = .ok out) :
    ∃ us, out = acc.reverse ++ us ∧ ∀ ys j acc', decodeUnits.go (xs ++ ys) j acc' =
      decodeUnits.go ys (j + xs.length) (us.reverse ++ acc') := by
  fun_induction decodeUnits.go xs i acc with
  | case1 i acc =>
    cases h
    exact ⟨[], by simp, fun ys j acc' => rfl⟩
  | case2 a rest i acc low ih =>
    obtain ⟨us, rfl, passed⟩ := ih h
    refine ⟨a.toUInt16 :: us, by simp, ?_⟩
    intro ys j acc'
    rw [List.cons_append, decodeUnits.go.eq_def]
    simp only [low, if_true, passed]
    simp [Nat.add_assoc, Nat.add_comm 1]
  | case4 a i acc large two b rest ih =>
    obtain ⟨us, rfl, passed⟩ := ih h
    refine ⟨((a.toUInt16 &&& 0x1F) <<< 6 ||| b.toUInt16 &&& 0x3F) :: us, by simp, ?_⟩
    intro ys j acc'
    rw [List.cons_append, List.cons_append, decodeUnits.go.eq_def]
    simp only [large, if_false, two, if_true, passed]
    simp [Nat.add_assoc, Nat.add_comm 2]
  | case5 a i acc large not_two three b d rest ih =>
    obtain ⟨us, rfl, passed⟩ := ih h
    refine ⟨((a.toUInt16 &&& 0x0F) <<< 12 ||| (b.toUInt16 &&& 0x3F) <<< 6 |||
      d.toUInt16 &&& 0x3F) :: us, by simp, ?_⟩
    intro ys j acc'
    rw [List.cons_append, List.cons_append, List.cons_append, decodeUnits.go.eq_def]
    simp only [large, if_false, not_two, three, if_true, passed]
    simp [Nat.add_assoc, Nat.add_comm 3]
  | _ => cases h


/-- Characters that are read are the same in front of any units and behind any characters. -/
theorem charsOfUnits?_go_split {us : List UInt16} {acc out : List Char}
    (h : charsOfUnits?.go us acc = some out) :
    ∃ cs, out = acc.reverse ++ cs ∧ ∀ vs acc',
      charsOfUnits?.go (us ++ vs) acc' = charsOfUnits?.go vs (cs.reverse ++ acc') := by
  fun_induction charsOfUnits?.go us acc with
  | case1 acc =>
    cases h
    exact ⟨[], by simp, fun vs acc' => rfl⟩
  | case3 u acc high v rest low n ih =>
    obtain ⟨cs, rfl, passed⟩ := ih h
    refine ⟨Char.ofNat n :: cs, by simp, ?_⟩
    intro vs acc'
    rw [List.cons_append, List.cons_append, charsOfUnits?.go.eq_def]
    simp only [high, if_true, low, passed]
    simp [n]
  | case6 u rest acc not_high not_low ih =>
    obtain ⟨cs, rfl, passed⟩ := ih h
    refine ⟨Char.ofNat u.toNat :: cs, by simp, ?_⟩
    intro vs acc'
    rw [List.cons_append, charsOfUnits?.go.eq_def]
    simp only [not_high, not_low, passed]
    simp
  | _ => cases h

/-- What is accepted behind units that are taken does not depend on them. -/
theorem decodeUnits_append {xs ys : Bytes} {us ws : List UInt16} (taken : decodeUnits xs = .ok us) :
    decodeUnits (xs ++ ys) = .ok ws ↔ ∃ vs, decodeUnits ys = .ok vs ∧ ws = us ++ vs := by
  obtain ⟨_, rfl, passed⟩ := decodeUnits_go_split taken
  have both : decodeUnits (xs ++ ys) = decodeUnits.go ys (0 + xs.length) (us.reverse ++ []) :=
    passed ys 0 []
  rw [both]
  constructor
  · intro h
    obtain ⟨vs, rfl, alone⟩ := decodeUnits_go_split h
    refine ⟨vs, ?_, by simp⟩
    have := alone [] 0 []
    simpa [decodeUnits, decodeUnits.go] using this
  · rintro ⟨vs, h, rfl⟩
    obtain ⟨_, rfl, alone⟩ := decodeUnits_go_split h
    have := alone [] (0 + xs.length) (us.reverse ++ [])
    simpa [decodeUnits.go] using this

theorem charsOfUnits?_append {us vs : List UInt16} {cs out : List Char}
    (taken : charsOfUnits? us = some cs) :
    charsOfUnits? (us ++ vs) = some out ↔ ∃ ds, charsOfUnits? vs = some ds ∧ out = cs ++ ds := by
  obtain ⟨_, rfl, passed⟩ := charsOfUnits?_go_split taken
  have both : charsOfUnits? (us ++ vs) = charsOfUnits?.go vs (cs.reverse ++ []) := passed vs []
  rw [both]
  constructor
  · intro h
    obtain ⟨ds, rfl, alone⟩ := charsOfUnits?_go_split h
    refine ⟨ds, ?_, by simp⟩
    have := alone [] []
    simpa [charsOfUnits?, charsOfUnits?.go] using this
  · rintro ⟨ds, h, rfl⟩
    obtain ⟨_, rfl, alone⟩ := charsOfUnits?_go_split h
    have := alone [] (cs.reverse ++ [])
    simpa [charsOfUnits?.go] using this

theorem decodeByUnits_eq_ok {bs : Bytes} {s : String} : decodeByUnits bs = .ok s ↔
    ∃ us, decodeUnits bs = .ok us ∧ charsOfUnits? us = some s.toList := by
  rw [decodeByUnits, except_bind_eq_ok]
  refine exists_congr fun us => and_congr_right fun _ => ?_
  cases read : charsOfUnits? us with
  | none => exact ⟨nofun, nofun⟩
  | some cs =>
    constructor
    · intro h
      cases h
      rw [String.toList_ofList]
    · intro h
      cases h
      exact congrArg Except.ok String.ofList_toList

/-- Unit by unit, bytes that are taken do not decide whether those behind them are. -/
theorem decodeByUnits_append {xs ys : Bytes} {s t : String} (taken : decodeByUnits xs = .ok s) :
    decodeByUnits (xs ++ ys) = .ok t ↔ ∃ u, decodeByUnits ys = .ok u ∧ t = s ++ u := by
  obtain ⟨us, read, chars⟩ := decodeByUnits_eq_ok.1 taken
  constructor
  · intro h
    obtain ⟨ws, all, out⟩ := decodeByUnits_eq_ok.1 h
    obtain ⟨vs, later, rfl⟩ := (decodeUnits_append read).1 all
    obtain ⟨ds, rest, joined⟩ := (charsOfUnits?_append chars).1 out
    refine ⟨String.ofList ds, decodeByUnits_eq_ok.2 ⟨vs, later, ?_⟩, ?_⟩
    · rw [String.toList_ofList, rest]
    · rw [← String.toList_inj, joined, String.toList_append, String.toList_ofList]
  · rintro ⟨u, h, rfl⟩
    obtain ⟨vs, later, rest⟩ := decodeByUnits_eq_ok.1 h
    refine decodeByUnits_eq_ok.2 ⟨us ++ vs, (decodeUnits_append read).2 ⟨vs, later, rfl⟩, ?_⟩
    exact (charsOfUnits?_append chars).2 ⟨u.toList, rest, String.toList_append⟩

/-- A form of four bytes that is taken is refused behind a zero byte, which is a character of its
own. -/
theorem FourByteForms.decoded_behind_zero {s : String} {bs : Bytes} (h : FourByteForms s bs) :
    decodeModified [0] = .ok "\x00" ∧ decodeModified bs = .ok s ∧
      ∃ lead : UInt8, 0xF0 ≤ lead ∧ decodeModified (0 :: bs) = .error (.textLead lead) := by
  refine ⟨rfl, h.decoded.1, ?_⟩
  obtain ⟨rfl, some, four⟩ := h
  obtain ⟨lead, large, refused⟩ := decodeUnits_go_four some four 1 [0]
  have by_units : decodeModified (0 :: s.toList.flatMap String.utf8EncodeChar) =
      decodeByUnits (0 :: s.toList.flatMap String.utf8EncodeChar) := by
    rw [decodeModified_eq_decodeByUnits_iff]
    intro t forms
    have zero := List.mem_cons_self (a := (0 : UInt8)) (l := s.toList.flatMap String.utf8EncodeChar)
    rw [forms.plain, zero_mem_plain] at zero
    exact forms.some _ zero rfl
  refine ⟨lead, large, ?_⟩
  have zero_taken : decodeUnits (0 :: s.toList.flatMap String.utf8EncodeChar) =
      decodeUnits.go (s.toList.flatMap String.utf8EncodeChar) 1 [0] := by
    rw [decodeUnits, decodeUnits.go.eq_def]
    rfl
  rw [by_units, decodeByUnits, zero_taken, refused]
  rfl

example : decodeModified [0xF0, 0x9F, 0x98, 0x80] = .ok "😀" ∧
    decodeByUnits [0xF0, 0x9F, 0x98, 0x80] = .error (.textLead 0xF0) ∧
    decodeModified [0x00, 0xF0, 0x9F, 0x98, 0x80] = .error (.textLead 0xF0) :=
  ⟨rfl, rfl, rfl⟩

/-! ## Lengths -/

theorem length_decodeUnits_go {bs : Bytes} {i : Nat} {acc units : List UInt16}
    (h : decodeUnits.go bs i acc = .ok units) : units.length ≤ acc.length + bs.length := by
  fun_induction decodeUnits.go bs i acc with
  | case1 i acc =>
    cases h
    simp
  | case2 | case4 | case5 =>
    rename_i ih
    have := ih h
    simp only [List.length_cons] at this ⊢
    omega
  | _ => cases h

theorem length_charsOfUnits?_go {units : List UInt16} {acc cs : List Char}
    (h : charsOfUnits?.go units acc = some cs) : cs.length ≤ acc.length + units.length := by
  fun_induction charsOfUnits?.go units acc with
  | case1 acc =>
    cases h
    simp
  | case3 | case6 =>
    rename_i ih
    have := ih h
    simp only [List.length_cons] at this ⊢
    omega
  | _ => cases h

theorem length_le_of_decodeByUnits {bs : Bytes} {text : String}
    (h : decodeByUnits bs = .ok text) : text.toList.length ≤ bs.length := by
  obtain ⟨units, decoded, h⟩ := except_bind_eq_ok.1 h
  split at h
  · rename_i cs paired
    cases h
    have fewer := length_charsOfUnits?_go paired
    have few := length_decodeUnits_go decoded
    simp only [List.length_nil] at few fewer
    rw [String.toList_ofList]
    omega
  · cases h

/-- A text has no more characters than bytes. -/
theorem length_le_of_decodeModified {bs : Bytes} {text : String}
    (h : decodeModified bs = .ok text) : text.toList.length ≤ bs.length := by
  unfold decodeModified at h
  split at h
  · rename_i cs plain
    split at h
    · exact length_le_of_decodeByUnits h
    · cases h
      rw [String.toList_ofList, decodeUtf8?_eq_some_iff.1 plain]
      refine length_le_flatMap fun c _ => ?_
      rw [String.length_utf8EncodeChar]
      exact c.utf8Size_pos
  · exact length_le_of_decodeByUnits h

end Weft.Text
