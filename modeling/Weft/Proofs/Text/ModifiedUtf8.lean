import Mathlib.Algebra.Group.Nat.Even
import Weft.Proofs.Bytes.Reading
import Weft.Text.ModifiedUtf8

/-!
# Texts encoded and decoded

The units of characters are the characters again, the bytes of units the units. Where the encoding of
a text is well-formed UTF-8 as well, it is that of the same characters.
-/

namespace Weft.Text

/-! ## Units -/

theorem toNat_ofNat_unit {n : Nat} (h : n < 65536) : (UInt16.ofNat n).toNat = n :=
  UInt16.toNat_ofNat_of_lt' h

/-- A character is no surrogate. -/
theorem char_valid (c : Char) : c.toNat < 0xD800 ∨ 0xDFFF < c.toNat ∧ c.toNat < 0x110000 := c.valid

theorem charsOfUnits?_go (cs acc : List Char) :
    charsOfUnits?.go (cs.flatMap unitsOfChar) acc = some (acc.reverse ++ cs) := by
  induction cs generalizing acc with
  | nil => simp [charsOfUnits?.go]
  | cons c cs ih =>
    have valid := char_valid c
    rw [List.flatMap_cons, unitsOfChar]
    split
    · rename_i small
      have unit := toNat_ofNat_unit small
      have not_high : isHighSurrogate (UInt16.ofNat c.toNat) = false := by
        simp [isHighSurrogate, UInt16.le_iff_toNat_le, unit]; omega
      have not_low : isLowSurrogate (UInt16.ofNat c.toNat) = false := by
        simp [isLowSurrogate, UInt16.le_iff_toNat_le, unit]; omega
      rw [List.singleton_append]
      unfold charsOfUnits?.go
      simp only [not_high, not_low, unit, Char.ofNat_toNat, ih, Bool.false_eq_true, if_false]
      simp
    · rename_i large
      have high := toNat_ofNat_unit (n := 0xD800 + (c.toNat - 0x10000) / 1024) (by omega)
      have low := toNat_ofNat_unit (n := 0xDC00 + (c.toNat - 0x10000) % 1024) (by omega)
      have is_high : isHighSurrogate (UInt16.ofNat (0xD800 + (c.toNat - 0x10000) / 1024)) = true := by
        simp only [isHighSurrogate, UInt16.le_iff_toNat_le, high, Bool.and_eq_true,
          decide_eq_true_eq, UInt16.toNat_ofNat]
        omega
      have is_low : isLowSurrogate (UInt16.ofNat (0xDC00 + (c.toNat - 0x10000) % 1024)) = true := by
        simp only [isLowSurrogate, UInt16.le_iff_toNat_le, low, Bool.and_eq_true,
          decide_eq_true_eq, UInt16.toNat_ofNat]
        omega
      rw [List.cons_append, List.singleton_append]
      unfold charsOfUnits?.go
      simp only [is_high, is_low, if_true, high, low]
      rw [show 0x10000 + (0xD800 + (c.toNat - 0x10000) / 1024 - 0xD800) * 1024 +
        (0xDC00 + (c.toNat - 0x10000) % 1024 - 0xDC00) = c.toNat by omega, Char.ofNat_toNat, ih]
      simp

theorem charsOfUnits?_flatMap (cs : List Char) :
    charsOfUnits? (cs.flatMap unitsOfChar) = some cs := charsOfUnits?_go cs []

/-! ## Bytes of units -/

/-- A high part and a low part of `k` bits do not overlap. -/
theorem mul_or_eq_add {k a b : Nat} (hb : b < 2 ^ k) : a * 2 ^ k ||| b = a * 2 ^ k + b := by
  rw [Nat.mul_comm, Nat.two_pow_add_eq_or_of_lt hb]

/-- A byte that marks its place and carries the low bits of a unit. -/
theorem toNat_marked (k mark : Nat) (u : UInt16) (fits : k ≤ 8) (room : mark * 2 ^ k < 256) :
    (UInt8.ofNat (mark * 2 ^ k) ||| u.toUInt8 &&& UInt8.ofNat (2 ^ k - 1)).toNat =
      mark * 2 ^ k + u.toNat % 2 ^ k := by
  have pow : 2 ^ k ≤ 2 ^ 8 := Nat.pow_le_pow_right (by omega) fits
  have joined := mul_or_eq_add (k := k) (a := mark) (Nat.mod_lt u.toNat (Nat.two_pow_pos k))
  rw [UInt8.toNat_or, UInt8.toNat_and, UInt16.toNat_toUInt8, UInt8.toNat_ofNat_of_lt' room,
    UInt8.toNat_ofNat_of_lt' (show 2 ^ k - 1 < 256 by omega), Nat.and_two_pow_sub_one_eq_mod,
    Nat.mod_mod_of_dvd _ (Nat.pow_dvd_pow 2 fits), joined]

theorem toNat_lead_two (u : UInt16) : ((0xC0 : UInt8) ||| u.toUInt8 &&& 0x1F).toNat =
    0xC0 + u.toNat % 32 := toNat_marked 5 6 u (by omega) (by omega)

theorem toNat_lead_three (u : UInt16) : ((0xE0 : UInt8) ||| u.toUInt8 &&& 0x0F).toNat =
    0xE0 + u.toNat % 16 := toNat_marked 4 14 u (by omega) (by omega)

theorem toNat_tail (u : UInt16) : ((0x80 : UInt8) ||| u.toUInt8 &&& 0x3F).toNat =
    0x80 + u.toNat % 64 := toNat_marked 6 2 u (by omega) (by omega)

theorem toNat_shift_six (u : UInt16) : (u >>> 6).toNat = u.toNat / 64 := by
  simp [Nat.shiftRight_eq_div_pow]

theorem toNat_shift_twelve (u : UInt16) : (u >>> 12).toNat = u.toNat / 4096 := by
  simp [Nat.shiftRight_eq_div_pow]

theorem encodeUnit_one {u : UInt16} (h : 1 ≤ u.toNat ∧ u.toNat ≤ 0x7F) :
    ∃ a : UInt8, encodeUnit u = [a] ∧ a.toNat = u.toNat := by
  refine ⟨u.toUInt8, ?_, ?_⟩
  · simp [encodeUnit, UInt16.le_iff_toNat_le, h]
  · simp; omega

theorem encodeUnit_two {u : UInt16} (h : u.toNat = 0 ∨ 0x80 ≤ u.toNat) (small : u.toNat ≤ 0x7FF) :
    ∃ a b : UInt8, encodeUnit u = [a, b] ∧ a.toNat = 0xC0 + u.toNat / 64 ∧
      b.toNat = 0x80 + u.toNat % 64 := by
  refine ⟨_, _, by
    rw [encodeUnit, if_neg (by simp [UInt16.le_iff_toNat_le]; omega),
      if_pos (by simpa [UInt16.le_iff_toNat_le] using small)], ?_, ?_⟩
  · rw [toNat_lead_two, toNat_shift_six]
    omega
  · rw [toNat_tail]

theorem encodeUnit_three {u : UInt16} (large : 0x800 ≤ u.toNat) :
    ∃ a b c : UInt8, encodeUnit u = [a, b, c] ∧ a.toNat = 0xE0 + u.toNat / 4096 ∧
      b.toNat = 0x80 + u.toNat / 64 % 64 ∧ c.toNat = 0x80 + u.toNat % 64 := by
  have bound := u.toNat_lt
  refine ⟨_, _, _, by
    rw [encodeUnit, if_neg (by simp [UInt16.le_iff_toNat_le]; omega),
      if_neg (by simp [UInt16.le_iff_toNat_le]; omega)], ?_, ?_, ?_⟩
  · rw [toNat_lead_three, toNat_shift_twelve]
    omega
  · rw [toNat_tail, toNat_shift_six]
  · rw [toNat_tail]

/-! ## Units of bytes -/

theorem uint8_all {P : UInt8 → Prop} (h : ∀ n < 256, P (UInt8.ofNat n)) (a : UInt8) : P a := by
  have here := h a.toNat a.toNat_lt
  rwa [UInt8.ofNat_toNat] at here

theorem lead_two_iff : ∀ a : UInt8,
    (a &&& 0xE0 == 0xC0) = true ↔ 0xC0 ≤ a.toNat ∧ a.toNat < 0xE0 :=
  uint8_all (by decide +kernel)

theorem lead_three_iff : ∀ a : UInt8,
    (a &&& 0xF0 == 0xE0) = true ↔ 0xE0 ≤ a.toNat ∧ a.toNat < 0xF0 :=
  uint8_all (by decide +kernel)

theorem toNat_low (k : Nat) (a : UInt8) (fits : k ≤ 8) :
    (a.toUInt16 &&& UInt16.ofNat (2 ^ k - 1)).toNat = a.toNat % 2 ^ k := by
  have pow : 2 ^ k ≤ 2 ^ 8 := Nat.pow_le_pow_right (by omega) fits
  rw [UInt16.toNat_and, UInt8.toNat_toUInt16, UInt16.toNat_ofNat_of_lt' (show _ < 65536 by omega),
    Nat.and_two_pow_sub_one_eq_mod]

theorem toNat_pair (a b : UInt8) :
    ((a.toUInt16 &&& 0x1F) <<< 6 ||| b.toUInt16 &&& 0x3F).toNat =
      a.toNat % 32 * 64 + b.toNat % 64 := by
  have high := toNat_low 5 a (by omega)
  have low := toNat_low 6 b (by omega)
  have joined := mul_or_eq_add (k := 6) (a := a.toNat % 32) (Nat.mod_lt b.toNat (by omega))
  rw [UInt16.toNat_or, UInt16.toNat_shiftLeft, show (0x1F : UInt16) = UInt16.ofNat (2 ^ 5 - 1) from rfl,
    show (0x3F : UInt16) = UInt16.ofNat (2 ^ 6 - 1) from rfl, high, low,
    show UInt16.toNat 6 % 16 = 6 from rfl, Nat.shiftLeft_eq, Nat.mod_eq_of_lt (by omega)]
  exact joined

theorem toNat_triple (a b c : UInt8) :
    ((a.toUInt16 &&& 0x0F) <<< 12 ||| (b.toUInt16 &&& 0x3F) <<< 6 ||| c.toUInt16 &&& 0x3F).toNat =
      a.toNat % 16 * 4096 + (b.toNat % 64 * 64 + c.toNat % 64) := by
  have high := toNat_low 4 a (by omega)
  have mid := toNat_low 6 b (by omega)
  have low := toNat_low 6 c (by omega)
  have inner := mul_or_eq_add (k := 6) (a := b.toNat % 64) (Nat.mod_lt c.toNat (by omega))
  have joined := mul_or_eq_add (k := 12) (a := a.toNat % 16)
    (b := b.toNat % 64 * 64 + c.toNat % 64) (by omega)
  have high_fits : a.toNat % 2 ^ 4 * 2 ^ 12 % 2 ^ 16 = a.toNat % 16 * 2 ^ 12 :=
    Nat.mod_eq_of_lt (by omega)
  have mid_fits : b.toNat % 2 ^ 6 * 2 ^ 6 % 2 ^ 16 = b.toNat % 64 * 2 ^ 6 :=
    Nat.mod_eq_of_lt (by omega)
  rw [UInt16.toNat_or, UInt16.toNat_or, UInt16.toNat_shiftLeft, UInt16.toNat_shiftLeft,
    show (0x0F : UInt16) = UInt16.ofNat (2 ^ 4 - 1) from rfl,
    show (0x3F : UInt16) = UInt16.ofNat (2 ^ 6 - 1) from rfl, high, mid, low,
    show UInt16.toNat 6 % 16 = 6 from rfl, show UInt16.toNat 12 % 16 = 12 from rfl,
    Nat.shiftLeft_eq, Nat.shiftLeft_eq, high_fits, mid_fits, Nat.or_assoc, inner]
  exact joined

theorem decodeUnits_go_encodeUnit (u : UInt16) (rest : Bytes) (i : Nat) (acc : List UInt16) :
    decodeUnits.go (encodeUnit u ++ rest) i acc =
      decodeUnits.go rest (i + (encodeUnit u).length) (u :: acc) := by
  have bound := u.toNat_lt
  by_cases one : 1 ≤ u.toNat ∧ u.toNat ≤ 0x7F
  · obtain ⟨a, written, ha⟩ := encodeUnit_one one
    have back : a.toUInt16 = u := UInt16.toNat_inj.1 (by rw [UInt8.toNat_toUInt16, ha])
    have small : a < 0x80 := UInt8.lt_iff_toNat_lt.2 (by rw [ha]; simp; omega)
    rw [written, List.singleton_append, decodeUnits.go.eq_def]
    simp only [small, if_true, back, List.length_singleton]
  · by_cases two : u.toNat ≤ 0x7FF
    · obtain ⟨a, b, written, ha, hb⟩ := encodeUnit_two (by omega) two
      have large : ¬ a < 0x80 := by rw [UInt8.lt_iff_toNat_lt, ha]; simp; omega
      have lead : (a &&& 0xE0 == 0xC0) = true := (lead_two_iff a).2 (by omega)
      have back : (a.toUInt16 &&& 0x1F) <<< 6 ||| b.toUInt16 &&& 0x3F = u :=
        UInt16.toNat_inj.1 (by rw [toNat_pair]; omega)
      rw [written, List.cons_append, List.singleton_append, decodeUnits.go.eq_def]
      simp only [large, if_false, lead, if_true, back, List.length_cons, List.length_nil]
    · obtain ⟨a, b, c, written, ha, hb, hc⟩ := encodeUnit_three (u := u) (by omega)
      have large : ¬ a < 0x80 := by rw [UInt8.lt_iff_toNat_lt, ha]; simp; omega
      have not_two : (a &&& 0xE0 == 0xC0) = false := by
        rw [← Bool.not_eq_true, lead_two_iff]
        omega
      have lead : (a &&& 0xF0 == 0xE0) = true := (lead_three_iff a).2 (by omega)
      have back : (a.toUInt16 &&& 0x0F) <<< 12 ||| (b.toUInt16 &&& 0x3F) <<< 6 |||
          c.toUInt16 &&& 0x3F = u := UInt16.toNat_inj.1 (by rw [toNat_triple]; omega)
      rw [written, List.cons_append, List.cons_append, List.singleton_append,
        decodeUnits.go.eq_def]
      simp only [large, if_false, not_two, Bool.false_eq_true, lead, if_true, back,
        List.length_cons, List.length_nil]

theorem decodeUnits_go (units : List UInt16) (i : Nat) (acc : List UInt16) :
    decodeUnits.go (units.flatMap encodeUnit) i acc = .ok (acc.reverse ++ units) := by
  induction units generalizing i acc with
  | nil => simp [decodeUnits.go]
  | cons u units ih => rw [List.flatMap_cons, decodeUnits_go_encodeUnit, ih]; simp

theorem decodeByUnits_encode (s : String) : decodeByUnits (encodeByUnits s) = .ok s := by
  have units := decodeUnits_go (s.toList.flatMap unitsOfChar) 0 []
  refine except_bind_eq_ok.2 ⟨s.toList.flatMap unitsOfChar, units, ?_⟩
  rw [charsOfUnits?_flatMap]
  exact congrArg Except.ok (String.ofList_toList)

/-! ## Well-formed UTF-8 -/

theorem isTail_iff (b : UInt8) : isTail b = true ↔ 0x80 ≤ b.toNat ∧ b.toNat ≤ 0xBF := by
  simp [isTail, UInt8.le_iff_toNat_le]

theorem isPair_iff (a b : UInt8) : isPair a b = true ↔
    0xC2 ≤ a.toNat ∧ a.toNat ≤ 0xDF ∧ 0x80 ≤ b.toNat ∧ b.toNat ≤ 0xBF := by
  simp [isPair, isTail, UInt8.le_iff_toNat_le, and_assoc]

theorem isTriple_iff (a b c : UInt8) : isTriple a b c = true ↔
    0xE0 ≤ a.toNat ∧ a.toNat ≤ 0xEF ∧ (0x80 ≤ b.toNat ∧ b.toNat ≤ 0xBF) ∧
      (0x80 ≤ c.toNat ∧ c.toNat ≤ 0xBF) ∧ (a.toNat = 0xE0 → 0xA0 ≤ b.toNat) ∧
      (a.toNat = 0xED → b.toNat < 0xA0) := by
  have lead : ∀ n : UInt8, a ≠ n ↔ a.toNat ≠ n.toNat := fun n => not_congr UInt8.toNat_inj.symm
  simp only [isTriple, Bool.and_eq_true, Bool.or_eq_true, decide_eq_true_eq, bne_iff_ne, ne_eq,
    isTail_iff, lead, UInt8.le_iff_toNat_le, UInt8.lt_iff_toNat_lt, UInt8.toNat_ofNat, and_assoc,
    imp_iff_not_or]

theorem isQuadruple_iff (a b c d : UInt8) : isQuadruple a b c d = true ↔
    0xF0 ≤ a.toNat ∧ a.toNat ≤ 0xF4 ∧ (0x80 ≤ b.toNat ∧ b.toNat ≤ 0xBF) ∧
      (0x80 ≤ c.toNat ∧ c.toNat ≤ 0xBF) ∧ (0x80 ≤ d.toNat ∧ d.toNat ≤ 0xBF) ∧
      (a.toNat = 0xF0 → 0x90 ≤ b.toNat) ∧ (a.toNat = 0xF4 → b.toNat < 0x90) := by
  have lead : ∀ n : UInt8, a ≠ n ↔ a.toNat ≠ n.toNat := fun n => not_congr UInt8.toNat_inj.symm
  simp only [isQuadruple, Bool.and_eq_true, Bool.or_eq_true, decide_eq_true_eq, bne_iff_ne, ne_eq,
    isTail_iff, lead, UInt8.le_iff_toNat_le, UInt8.lt_iff_toNat_lt, UInt8.toNat_ofNat, and_assoc,
    imp_iff_not_or]

theorem isQuadruple_lead {a b c d : UInt8} (h : isQuadruple a b c d = true) : 0xF0 ≤ a.toNat := by
  simp only [isQuadruple, Bool.and_eq_true, decide_eq_true_eq, UInt8.le_iff_toNat_le] at h
  exact h.1.1.1.1.1.1

theorem not_lt_of_high {a : UInt8} (high : 0x80 ≤ a.toNat) : ¬ a < 0x80 := fun low =>
  absurd (UInt8.lt_iff_toNat_lt.1 low) (Nat.not_lt.2 high)

section Forms

variable {a b d e : UInt8} (rest : Bytes) (acc : List Char)

theorem decodeUtf8?_go_of_low (low : a.toNat < 0x80) :
    decodeUtf8?.go (a :: rest) acc = decodeUtf8?.go rest (Char.ofNat a.toNat :: acc) := by
  have low : a < 0x80 := UInt8.lt_iff_toNat_lt.2 low
  rw [decodeUtf8?.go.eq_def]
  simp only [low, if_true]

theorem decodeUtf8?_go_of_isPair (pair : isPair a b = true) :
    decodeUtf8?.go (a :: b :: rest) acc =
      decodeUtf8?.go rest (Char.ofNat (a.toNat % 32 * 64 + six b) :: acc) := by
  have form := (isPair_iff a b).1 pair
  have large : ¬ a < 0x80 := not_lt_of_high (by omega)
  rw [decodeUtf8?.go.eq_def]
  simp only [large, if_false, pair, if_true]

theorem decodeUtf8?_go_of_isTriple (triple : isTriple a b d = true) :
    decodeUtf8?.go (a :: b :: d :: rest) acc =
      decodeUtf8?.go rest (Char.ofNat (a.toNat % 16 * 4096 + six b * 64 + six d) :: acc) := by
  have form := (isTriple_iff a b d).1 triple
  have large : ¬ a < 0x80 := not_lt_of_high (by omega)
  have not_pair : isPair a b = false := by
    rw [← Bool.not_eq_true, isPair_iff]
    omega
  rw [decodeUtf8?.go.eq_def]
  simp only [large, if_false, not_pair, Bool.false_eq_true, triple, if_true]

theorem decodeUtf8?_go_of_isQuadruple (quadruple : isQuadruple a b d e = true) :
    decodeUtf8?.go (a :: b :: d :: e :: rest) acc = decodeUtf8?.go rest
      (Char.ofNat (a.toNat % 8 * 262144 + six b * 4096 + six d * 64 + six e) :: acc) := by
  have lead := isQuadruple_lead quadruple
  have large : ¬ a < 0x80 := not_lt_of_high (by omega)
  have not_pair : isPair a b = false := by
    rw [← Bool.not_eq_true, isPair_iff]
    omega
  have not_triple : isTriple a b d = false := by
    rw [← Bool.not_eq_true, isTriple_iff]
    omega
  rw [decodeUtf8?.go.eq_def]
  simp only [large, if_false, not_pair, not_triple, Bool.false_eq_true, quadruple, if_true]

end Forms

/-! ## Forms of characters -/

theorem utf8EncodeChar_one {c : Char} (h : c.toNat ≤ 0x7F) :
    ∃ a : UInt8, String.utf8EncodeChar c = [a] ∧ a.toNat = c.toNat := by
  have same : c.val.toNat = c.toNat := rfl
  refine ⟨UInt8.ofNat c.toNat, ?_, ?_⟩
  · simp only [String.utf8EncodeChar, same, if_pos h]
  · rw [UInt8.toNat_ofNat']
    omega

theorem utf8EncodeChar_two {c : Char} (h : 0x80 ≤ c.toNat) (small : c.toNat ≤ 0x7FF) :
    ∃ a b : UInt8, String.utf8EncodeChar c = [a, b] ∧ a.toNat = 0xC0 + c.toNat / 64 ∧
      b.toNat = 0x80 + c.toNat % 64 := by
  have same : c.val.toNat = c.toNat := rfl
  refine ⟨UInt8.ofNat (c.toNat / 64 % 32 + 192), UInt8.ofNat (c.toNat % 64 + 128), ?_, ?_, ?_⟩
  · simp only [String.utf8EncodeChar, same]
    rw [if_neg (by omega), if_pos small]
  · simp only [UInt8.toNat_ofNat']
    omega
  · simp only [UInt8.toNat_ofNat']
    omega

theorem utf8EncodeChar_three {c : Char} (h : 0x800 ≤ c.toNat) (small : c.toNat ≤ 0xFFFF) :
    ∃ a b d : UInt8, String.utf8EncodeChar c = [a, b, d] ∧ a.toNat = 0xE0 + c.toNat / 4096 ∧
      b.toNat = 0x80 + c.toNat / 64 % 64 ∧ d.toNat = 0x80 + c.toNat % 64 := by
  have same : c.val.toNat = c.toNat := rfl
  refine ⟨UInt8.ofNat (c.toNat / 4096 % 16 + 224), UInt8.ofNat (c.toNat / 64 % 64 + 128),
    UInt8.ofNat (c.toNat % 64 + 128), ?_, ?_, ?_, ?_⟩
  · simp only [String.utf8EncodeChar, same]
    rw [if_neg (by omega), if_neg (by omega), if_pos small]
  all_goals
    simp only [UInt8.toNat_ofNat']
    omega

theorem utf8EncodeChar_four {c : Char} (large : 0x10000 ≤ c.toNat) :
    ∃ a b d e : UInt8, String.utf8EncodeChar c = [a, b, d, e] ∧
      a.toNat = 0xF0 + c.toNat / 262144 ∧ b.toNat = 0x80 + c.toNat / 4096 % 64 ∧
      d.toNat = 0x80 + c.toNat / 64 % 64 ∧ e.toNat = 0x80 + c.toNat % 64 := by
  have same : c.val.toNat = c.toNat := rfl
  have valid := char_valid c
  refine ⟨UInt8.ofNat (c.toNat / 262144 % 8 + 240), UInt8.ofNat (c.toNat / 4096 % 64 + 128),
    UInt8.ofNat (c.toNat / 64 % 64 + 128), UInt8.ofNat (c.toNat % 64 + 128), ?_, ?_, ?_, ?_, ?_⟩
  · simp only [String.utf8EncodeChar, same]
    rw [if_neg (by omega), if_neg (by omega), if_neg (by omega)]
  all_goals
    simp only [UInt8.toNat_ofNat']
    omega

/-- The first character is decoded from its form, and the rest from what follows. -/
theorem decodeUtf8?_go_utf8EncodeChar (c : Char) (rest : Bytes) (acc : List Char) :
    decodeUtf8?.go (String.utf8EncodeChar c ++ rest) acc = decodeUtf8?.go rest (c :: acc) := by
  have valid := char_valid c
  by_cases one : c.toNat ≤ 0x7F
  · obtain ⟨a, written, ha⟩ := utf8EncodeChar_one one
    rw [written, List.singleton_append, decodeUtf8?_go_of_low rest acc (by omega), ha,
      Char.ofNat_toNat]
  by_cases two : c.toNat ≤ 0x7FF
  · obtain ⟨a, b, written, ha, hb⟩ := utf8EncodeChar_two (by omega) two
    have pair : isPair a b = true := (isPair_iff a b).2 (by omega)
    have value : a.toNat % 32 * 64 + six b = c.toNat := by
      rw [six]
      omega
    rw [written, List.cons_append, List.singleton_append, decodeUtf8?_go_of_isPair rest acc pair,
      value, Char.ofNat_toNat]
  by_cases three : c.toNat ≤ 0xFFFF
  · obtain ⟨a, b, d, written, ha, hb, hd⟩ := utf8EncodeChar_three (by omega) three
    have triple : isTriple a b d = true := (isTriple_iff a b d).2 (by omega)
    have value : a.toNat % 16 * 4096 + six b * 64 + six d = c.toNat := by
      rw [six, six]
      omega
    rw [written, List.cons_append, List.cons_append, List.singleton_append,
      decodeUtf8?_go_of_isTriple rest acc triple, value, Char.ofNat_toNat]
  · obtain ⟨a, b, d, e, written, ha, hb, hd, he⟩ := utf8EncodeChar_four (c := c) (by omega)
    have quadruple : isQuadruple a b d e = true := by
      rw [isQuadruple_iff]
      refine ⟨?_, ?_, ?_, ?_, ?_, ?_, ?_⟩
      all_goals omega
    have value : a.toNat % 8 * 262144 + six b * 4096 + six d * 64 + six e = c.toNat := by
      rw [six, six, six]
      omega
    rw [written, List.cons_append, List.cons_append, List.cons_append, List.singleton_append,
      decodeUtf8?_go_of_isQuadruple rest acc quadruple, value, Char.ofNat_toNat]

/-! ## Units of characters as bytes -/

/-- The bytes of a character. -/
def encodeChar (c : Char) : Bytes := (unitsOfChar c).flatMap encodeUnit

theorem isUniform_iff (c : Char) : isUniform c = true ↔ c ≠ '\x00' ∧ c.toNat < 0x10000 := by
  simp [isUniform]

theorem utf8EncodeChar_of_isUniform {c : Char} (h : isUniform c = true) :
    String.utf8EncodeChar c = encodeChar c := by
  obtain ⟨other, small⟩ := (isUniform_iff c).1 h
  have some : c.toNat ≠ 0 := fun zero => other (Char.toNat_inj.1 zero)
  have unit := toNat_ofNat_unit small
  rw [encodeChar, unitsOfChar, if_pos small, List.flatMap_singleton]
  by_cases one : c.toNat ≤ 0x7F
  · obtain ⟨a, written, ha⟩ := encodeUnit_one (u := UInt16.ofNat c.toNat) (by omega)
    obtain ⟨a', plain, ha'⟩ := utf8EncodeChar_one one
    obtain rfl : a' = a := UInt8.toNat_inj.1 (by omega)
    rw [written, plain]
  by_cases two : c.toNat ≤ 0x7FF
  · obtain ⟨a, b, written, ha, hb⟩ := encodeUnit_two (u := UInt16.ofNat c.toNat)
      (by omega) (by omega)
    obtain ⟨a', b', plain, ha', hb'⟩ := utf8EncodeChar_two (by omega) two
    obtain rfl : a' = a := UInt8.toNat_inj.1 (by omega)
    obtain rfl : b' = b := UInt8.toNat_inj.1 (by omega)
    rw [written, plain]
  · obtain ⟨a, b, d, written, ha, hb, hd⟩ := encodeUnit_three (u := UInt16.ofNat c.toNat)
      (by omega)
    obtain ⟨a', b', d', plain, ha', hb', hd'⟩ := utf8EncodeChar_three (c := c) (by omega) (by omega)
    obtain rfl : a' = a := UInt8.toNat_inj.1 (by omega)
    obtain rfl : b' = b := UInt8.toNat_inj.1 (by omega)
    obtain rfl : d' = d := UInt8.toNat_inj.1 (by omega)
    rw [written, plain]

/-- A lead byte of three bytes or fewer, with what is no character, ends the decoding. -/
theorem decodeUtf8?_go_none {a b : UInt8} {rest : Bytes} {acc : List Char} (lead : 0x80 ≤ a.toNat)
    (short : a.toNat < 0xF0) (not_pair : isPair a b = false)
    (not_triple : ∀ c, isTriple a b c = false) : decodeUtf8?.go (a :: b :: rest) acc = none := by
  have large : ¬ a < 0x80 := not_lt_of_high lead
  have not_quadruple : ∀ c d, isQuadruple a b c d = false := fun c d => by
    rw [← Bool.not_eq_true]
    intro h
    have := isQuadruple_lead h
    omega
  rw [decodeUtf8?.go.eq_def]
  cases rest with
  | nil => simp only [large, if_false, not_pair, Bool.false_eq_true]
  | cons c rest =>
    cases rest with
    | nil => simp only [large, if_false, not_pair, not_triple, Bool.false_eq_true]
    | cons d rest =>
      simp only [large, if_false, not_pair, not_triple, not_quadruple, Bool.false_eq_true]

/-- Where the bytes of a character begin well-formed UTF-8, that is UTF-8 of the character. -/
theorem decodeUtf8?_go_encodeChar (c : Char) (rest : Bytes) (acc : List Char) {out : List Char}
    (h : decodeUtf8?.go (encodeChar c ++ rest) acc = some out) :
    decodeUtf8?.go rest (c :: acc) = some out := by
  have valid := char_valid c
  by_cases uniform : isUniform c = true
  · rwa [← utf8EncodeChar_of_isUniform uniform, decodeUtf8?_go_utf8EncodeChar] at h
  rw [isUniform_iff, not_and_or, not_not, Nat.not_lt] at uniform
  rcases uniform with zero | large
  · -- the two bytes of the unit zero are too long for UTF-8
    have zero : c.toNat = 0 := congrArg Char.toNat zero
    have small : c.toNat < 65536 := by omega
    have unit := toNat_ofNat_unit small
    obtain ⟨a, b, written, ha, hb⟩ := encodeUnit_two (u := UInt16.ofNat c.toNat)
      (by rw [unit]; omega) (by rw [unit]; omega)
    rw [unit] at ha hb
    have units : encodeChar c = [a, b] := by
      rw [encodeChar, unitsOfChar, if_pos small, List.flatMap_singleton, written]
    rw [units, List.cons_append, List.singleton_append,
      decodeUtf8?_go_none (by omega) (by omega) (by rw [← Bool.not_eq_true, isPair_iff]; omega)
        (fun c => by rw [← Bool.not_eq_true, isTriple_iff]; omega)] at h
    cases h
  · -- the bytes of a first surrogate are no UTF-8
    have unit := toNat_ofNat_unit (n := 0xD800 + (c.toNat - 0x10000) / 1024) (by omega)
    obtain ⟨a, b, d, written, ha, hb, hd⟩ := encodeUnit_three
      (u := UInt16.ofNat (0xD800 + (c.toNat - 0x10000) / 1024)) (by rw [unit]; omega)
    rw [unit] at ha hb hd
    have units : encodeChar c = [a, b, d] ++
        encodeUnit (UInt16.ofNat (0xDC00 + (c.toNat - 0x10000) % 1024)) := by
      rw [encodeChar, unitsOfChar, if_neg (Nat.not_lt.2 large), ← written]
      simp
    rw [units, List.append_assoc, List.cons_append, List.cons_append,
      decodeUtf8?_go_none (by omega) (by omega) (by rw [← Bool.not_eq_true, isPair_iff]; omega)
        (fun c => by rw [← Bool.not_eq_true, isTriple_iff]; omega)] at h
    cases h

theorem decodeUtf8?_go_encode (cs acc : List Char) {out : List Char}
    (h : decodeUtf8?.go (cs.flatMap encodeChar) acc = some out) : out = acc.reverse ++ cs := by
  induction cs generalizing acc with
  | nil => simpa [decodeUtf8?.go, eq_comm] using h
  | cons c cs ih =>
    rw [List.flatMap_cons] at h
    have := ih (c :: acc) (decodeUtf8?_go_encodeChar c _ acc h)
    simpa using this

/-- The characters of well-formed UTF-8 that a text is written as are those of the text. -/
theorem decodeUtf8?_encode {s : String} {cs : List Char}
    (h : decodeUtf8? (encodeByUnits s) = some cs) : cs = s.toList := by
  rw [encodeByUnits, List.flatMap_assoc] at h
  exact decodeUtf8?_go_encode s.toList [] h

/-! ## Texts written as UTF-8 -/

/-- Plain UTF-8 is written just where that is what the units are written as. -/
theorem encodeModified_eq (s : String) : encodeModified s = encodeByUnits s := by
  unfold encodeModified
  split
  · rename_i uniform
    rw [encodeByUnits, List.flatMap_assoc]
    exact List.flatMap_congr fun c mem => utf8EncodeChar_of_isUniform (List.all_eq_true.1 uniform c mem)
  · rfl

/-- Every text is read back from its modified UTF-8. -/
theorem decodeModified_encodeModified (s : String) :
    decodeModified (encodeModified s) = .ok s := by
  rw [encodeModified_eq]
  unfold decodeModified
  cases h : decodeUtf8? (encodeByUnits s) with
  | none => exact decodeByUnits_encode s
  | some cs =>
    have same := decodeUtf8?_encode h
    simp only [same, String.ofList_toList, decodeByUnits_encode, ite_self]

/-! ## Bytes that do not occur -/

theorem encodeUnit_bounds {u : UInt16} {b : UInt8} (mem : b ∈ encodeUnit u) :
    0 < b.toNat ∧ b.toNat < 0xF0 := by
  have bound := u.toNat_lt
  by_cases one : 1 ≤ u.toNat ∧ u.toNat ≤ 0x7F
  · obtain ⟨a, written, ha⟩ := encodeUnit_one one
    rw [written, List.mem_singleton] at mem
    subst mem
    omega
  · by_cases two : u.toNat ≤ 0x7FF
    · obtain ⟨a, a', written, ha, ha'⟩ := encodeUnit_two (by omega) two
      simp only [written, List.mem_cons, List.not_mem_nil, or_false] at mem
      rcases mem with rfl | rfl <;> omega
    · obtain ⟨a, a', a'', written, ha, ha', ha''⟩ := encodeUnit_three (u := u) (by omega)
      simp only [written, List.mem_cons, List.not_mem_nil, or_false] at mem
      rcases mem with rfl | rfl | rfl <;> omega

/-- Nothing of a text is lost in its modified UTF-8, which has neither the byte zero nor the lead
bytes of four-byte characters, whether it is written as plain UTF-8 or unit by unit and whether it is
taken as plain UTF-8 or read unit by unit. -/
theorem encodeModified_lossless (s : String) :
    decodeModified (encodeModified s) = .ok s ∧
      (∀ b ∈ encodeModified s, b ≠ 0 ∧ b < 0xF0) ∧
      encodeModified s = encodeByUnits s ∧
      decodeByUnits (encodeModified s) = .ok s ∧
      ∀ cs, decodeUtf8? (encodeModified s) = some cs → String.ofList cs = s := by
  refine ⟨decodeModified_encodeModified s, ?_, encodeModified_eq s, ?_, ?_⟩
  · intro b mem
    rw [encodeModified_eq, encodeByUnits, List.mem_flatMap] at mem
    obtain ⟨u, -, mem⟩ := mem
    obtain ⟨some, low⟩ := encodeUnit_bounds mem
    refine ⟨?_, UInt8.lt_iff_toNat_lt.2 low⟩
    rintro rfl
    simp at some
  · rw [encodeModified_eq]
    exact decodeByUnits_encode s
  · intro cs decoded
    rw [encodeModified_eq] at decoded
    rw [decodeUtf8?_encode decoded, String.ofList_toList]

/-- The character zero takes two bytes, and a character beyond sixteen bits six. -/
theorem encodeModified_lossless_mixed :
    encodeModified "a\x00😀" = [0x61, 0xC0, 0x80, 0xED, 0xA0, 0xBD, 0xED, 0xB8, 0x80] ∧
      decodeModified [0x61, 0xC0, 0x80, 0xED, 0xA0, 0xBD, 0xED, 0xB8, 0x80] = .ok "a\x00😀" := by
  have written : encodeModified "a\x00😀" = [0x61, 0xC0, 0x80, 0xED, 0xA0, 0xBD, 0xED, 0xB8, 0x80] := by
    decide +kernel
  exact ⟨written, written ▸ (encodeModified_lossless "a\x00😀").1⟩

end Weft.Text
