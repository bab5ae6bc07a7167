import Weft.Bytes.Reader
import Weft.Proofs.Steps

/-!
# Reading back what was written

`Reader.Takes r pos bs a` says that from position `pos` the reader `r` takes exactly the bytes `bs`
and answers `a`, whatever follows them. The law of each format is that its reader takes the bytes
that its writer made; `Takes.bind` puts the laws of the parts together.
-/

namespace Weft

/-! ## Numbers as bytes -/

namespace Bytes

theorem toNat_toU16 (a b : UInt8) : (toU16 a b).toNat = a.toNat * 256 + b.toNat := by
  have ha := a.toNat_lt
  have joined := Nat.shiftLeft_add_eq_or_of_lt b.toNat_lt a.toNat
  have high : a.toNat <<< 8 = a.toNat * 256 := Nat.shiftLeft_eq _ _
  simp only [toU16, UInt16.toNat_or, UInt16.toNat_shiftLeft, UInt8.toNat_toUInt16]
  rw [show UInt16.toNat 8 % 16 = 8 from rfl, Nat.mod_eq_of_lt (by omega), ← joined, high]

theorem toNat_toU32 (a b c d : UInt8) :
    (toU32 a b c d).toNat = (toU16 a b).toNat * 65536 + (toU16 c d).toNat := by
  have ha := (toU16 a b).toNat_lt
  have joined := Nat.shiftLeft_add_eq_or_of_lt (toU16 c d).toNat_lt (toU16 a b).toNat
  have high : (toU16 a b).toNat <<< 16 = (toU16 a b).toNat * 65536 := Nat.shiftLeft_eq _ _
  simp only [toU32, UInt32.toNat_or, UInt32.toNat_shiftLeft, UInt16.toNat_toUInt32]
  rw [show UInt32.toNat 16 % 32 = 16 from rfl, Nat.mod_eq_of_lt (by omega), ← joined, high]

theorem toNat_toU64 (a b : UInt32) : (toU64 a b).toNat = a.toNat * 4294967296 + b.toNat := by
  have ha := a.toNat_lt
  have joined := Nat.shiftLeft_add_eq_or_of_lt b.toNat_lt a.toNat
  have high : a.toNat <<< 32 = a.toNat * 4294967296 := Nat.shiftLeft_eq _ _
  simp only [toU64, UInt64.toNat_or, UInt64.toNat_shiftLeft, UInt32.toNat_toUInt64]
  rw [show UInt64.toNat 32 % 64 = 32 from rfl, Nat.mod_eq_of_lt (by omega), ← joined, high]

theorem toU16_ofU16 (n : UInt16) : toU16 (n >>> 8).toUInt8 n.toUInt8 = n := by
  have := n.toNat_lt
  apply UInt16.toNat_inj.1
  simp [toNat_toU16, Nat.shiftRight_eq_div_pow]
  omega

theorem toU32_ofU32 (n : UInt32) :
    toU32 (n >>> 24).toUInt8 (n >>> 16).toUInt8 (n >>> 8).toUInt8 n.toUInt8 = n := by
  have := n.toNat_lt
  apply UInt32.toNat_inj.1
  simp [toNat_toU32, toNat_toU16, Nat.shiftRight_eq_div_pow]
  omega

theorem toU64_ofU64 (n : UInt64) : toU64 (n >>> 32).toUInt32 n.toUInt32 = n := by
  have := n.toNat_lt
  apply UInt64.toNat_inj.1
  simp [toNat_toU64, Nat.shiftRight_eq_div_pow]
  omega

/-- A byte is the code of the character of that number. -/
theorem toNat_char (b : UInt8) : (Char.ofNat b.toNat).toNat = b.toNat := by
  have valid : b.toNat.isValidChar := .inl (by have := b.toNat_lt; omega)
  rw [Char.ofNat, dif_pos valid]
  rfl

@[simp] theorem length_ofU16 (n : UInt16) : (ofU16 n).length = 2 := rfl

@[simp] theorem length_ofU32 (n : UInt32) : (ofU32 n).length = 4 := rfl

@[simp] theorem length_ofU64 (n : UInt64) : (ofU64 n).length = 8 := rfl

theorem splitAt?_go (bs rest taken : Bytes) :
    splitAt?.go bs.length (bs ++ rest) taken = some (taken.reverse ++ bs, rest) := by
  induction bs generalizing taken with
  | nil => simp [splitAt?.go]
  | cons b bs ih => simp [splitAt?.go, ih]

theorem splitAt?_append (bs rest : Bytes) :
    splitAt? bs.length (bs ++ rest) = some (bs, rest) := by
  simp [splitAt?, splitAt?_go]

theorem splitAt?_go_eq_some {n : Nat} {bs taken front back : Bytes}
    (h : splitAt?.go n bs taken = some (front, back)) :
    ∃ more, front = taken.reverse ++ more ∧ bs = more ++ back ∧ more.length = n := by
  induction n generalizing bs taken with
  | zero =>
    cases h
    exact ⟨[], by simp⟩
  | succ n ih =>
    cases bs with
    | nil => cases h
    | cons b bs =>
      obtain ⟨more, rfl, rfl, rfl⟩ := ih h
      exact ⟨b :: more, by simp⟩

theorem splitAt?_eq_some {n : Nat} {bs front back : Bytes}
    (h : splitAt? n bs = some (front, back)) : bs = front ++ back ∧ front.length = n := by
  obtain ⟨more, rfl, rfl, length⟩ := splitAt?_go_eq_some h
  exact ⟨rfl, length⟩

end Bytes

/-! ## Tables -/

/-- The bytes are those of the items, one behind the other, behind their number. -/
structure Tabled {α : Type} (W : α → Bytes → Prop) (as : List α) (bs : Bytes) : Prop where
  few : as.length < 65536
  parts : ∃ parts, List.Forall₂ W as parts ∧
    bs = Bytes.ofU16 (UInt16.ofNat as.length) ++ parts.flatten

namespace Tabled

variable {α : Type} {V W : α → Bytes → Prop} {as : List α} {bs : Bytes}

theorem of_map {f : α → Bytes} (few : as.length < 65536) (each : ∀ a ∈ as, W a (f a)) :
    Tabled W as (Bytes.ofU16 (UInt16.ofNat as.length) ++ (as.map f).flatten) :=
  ⟨few, as.map f, List.forall₂_map_right_iff.2 (List.forall₂_same.2 each), rfl⟩

/-- The bytes of an item are fewer than those of the table. -/
theorem imp (h : Tabled V as bs)
    (each : ∀ a ∈ as, ∀ part : Bytes, part.length < bs.length → V a part → W a part) :
    Tabled W as bs := by
  obtain ⟨few, parts, related, rfl⟩ := h
  refine ⟨few, parts, ?_, rfl⟩
  have shorter (part : Bytes) (mem : part ∈ parts) : part.length <
      (Bytes.ofU16 (UInt16.ofNat as.length) ++ parts.flatten).length := by
    have := List.Sublist.length_le (List.sublist_flatten_of_mem mem)
    rw [List.length_append, Bytes.length_ofU16]
    omega
  have sized := (List.forall₂_and_left _ _).2 ⟨shorter, related.flip⟩
  have pairs := (List.forall₂_and_left _ _).2 ⟨each, sized.flip⟩
  exact pairs.imp fun a part ⟨weaker, short, v⟩ => weaker part short v

end Tabled

namespace Reader

variable {α β : Type} {pos : Nat}

/-- From `pos` the reader takes the bytes and answers `a`, whatever follows them. -/
def Takes (r : Reader α) (pos : Nat) (bs : Bytes) (a : α) : Prop :=
  ∀ rest, r ⟨pos, bs ++ rest⟩ = .ok a ⟨pos + bs.length, rest⟩

namespace Takes

theorem pure (a : α) : Takes (Pure.pure a : Reader α) pos [] a := fun _ => rfl

theorem bind {r : Reader α} {f : α → Reader β} {bs cs : Bytes} {a : α} {b : β}
    (first : r.Takes pos bs a) (second : (f a).Takes (pos + bs.length) cs b) :
    (r >>= f).Takes pos (bs ++ cs) b := by
  intro rest
  rw [List.append_assoc, step_bind_ok (first (cs ++ rest)), List.length_append, ← Nat.add_assoc]
  exact second rest

/-- A last step that only answers takes no bytes. -/
theorem close {r : Reader α} {f : α → Reader β} {bs : Bytes} {a : α} {b : β}
    (first : r.Takes pos bs a) (last : (f a).Takes (pos + bs.length) [] b) :
    (r >>= f).Takes pos bs b := by
  have whole := first.bind last
  rwa [List.append_nil] at whole

theorem map {r : Reader α} {f : α → β} {bs : Bytes} {a : α} (h : r.Takes pos bs a) :
    Takes (do return f (← r)) pos bs (f a) := by
  have joined := h.bind (f := fun a => Pure.pure (f a)) (pure (f a))
  rwa [List.append_nil] at joined

theorem u8 (b : UInt8) : Reader.u8.Takes pos [b] b := fun _ => rfl

theorem u16 (n : UInt16) : Reader.u16.Takes pos (Bytes.ofU16 n) n := by
  intro rest
  show EStateM.Result.ok (Bytes.toU16 _ _) _ = _
  rw [Bytes.toU16_ofU16]
  rfl

theorem u32 (n : UInt32) : Reader.u32.Takes pos (Bytes.ofU32 n) n := by
  intro rest
  show EStateM.Result.ok (Bytes.toU32 _ _ _ _) _ = _
  rw [Bytes.toU32_ofU32]
  rfl

theorem u64 (n : UInt64) : Reader.u64.Takes pos (Bytes.ofU64 n) n := by
  intro rest
  show EStateM.Result.ok (Bytes.toU64 (Bytes.toU32 _ _ _ _) (Bytes.toU32 _ _ _ _)) _ = _
  rw [Bytes.toU32_ofU32, Bytes.toU32_ofU32, Bytes.toU64_ofU64]
  rfl

theorem i8 (n : Int8) : Reader.i8.Takes pos [n.toUInt8] n := (u8 n.toUInt8).map

theorem i16 (n : Int16) : Reader.i16.Takes pos (Bytes.ofU16 n.toUInt16) n := (u16 n.toUInt16).map

theorem i32 (n : Int32) : Reader.i32.Takes pos (Bytes.ofU32 n.toUInt32) n := (u32 n.toUInt32).map

theorem i64 (n : Int64) : Reader.i64.Takes pos (Bytes.ofU64 n.toUInt64) n := (u64 n.toUInt64).map

theorem bytes {n : Nat} {bs : Bytes} (h : bs.length = n) : (Reader.bytes n).Takes pos bs bs := by
  intro rest
  subst h
  simp only [Reader.bytes, Bytes.splitAt?_append]

theorem times_go {r : Reader α} {parts : List Bytes} {as : List α}
    (items : List.Forall₂ (fun bs a => ∀ pos, r.Takes pos bs a) parts as) (acc : List α) :
    (Reader.times.go r as.length acc).Takes pos parts.flatten (acc.reverse ++ as) := by
  induction items generalizing pos acc with
  | nil => rw [List.append_nil]; exact pure acc.reverse
  | @cons bs a parts as item _ ih =>
    refine (item pos).bind ?_
    have rest := @ih (pos + bs.length) (a :: acc)
    rwa [List.reverse_cons, List.append_assoc] at rest

/-- Items one behind the other are read back if each is. -/
theorem times {r : Reader α} {parts : List Bytes} {as : List α}
    (items : List.Forall₂ (fun bs a => ∀ pos, r.Takes pos bs a) parts as) {n : Nat}
    (h : as.length = n) : (Reader.times n r).Takes pos parts.flatten as := by
  subst h
  exact times_go items []

/-- Items behind their number are read back if each is. -/
theorem table {r : Reader α} {as : List α} {bs : Bytes}
    (h : Tabled (fun a part => ∀ pos, r.Takes pos part a) as bs) :
    (Reader.table r).Takes pos bs as := by
  obtain ⟨few, parts, each, rfl⟩ := h
  exact (u16 _).bind (times each.flip (UInt16.toNat_ofNat_of_lt' few).symm)

end Takes

/-- From `pos` the reader answers `a` if the bytes are all that is left. -/
def Ends (r : Reader α) (pos : Nat) (bs : Bytes) (a : α) : Prop :=
  ∃ s, r ⟨pos, bs⟩ = .ok a s

theorem Takes.ends {r : Reader α} {f : α → Reader β} {bs cs : Bytes} {a : α} {b : β}
    (first : r.Takes pos bs a) (last : (f a).Ends (pos + bs.length) cs b) :
    (r >>= f).Ends pos (bs ++ cs) b :=
  last.imp fun _ done => (step_bind_ok (first cs)).trans done

theorem Takes.finish {r : Reader α} {f : α → Reader β} {bs : Bytes} {a : α} {b : β}
    (first : r.Takes pos bs a) (last : (f a).Ends (pos + bs.length) [] b) :
    (r >>= f).Ends pos bs b := by
  have whole := first.ends last
  rwa [List.append_nil] at whole

theorem Ends.parse {r : Reader α} {bs : Bytes} {a : α} (h : r.Ends 0 bs a) :
    r.parse bs = .ok a := by
  obtain ⟨s, done⟩ := h
  simp [Reader.parse, Input.ofBytes, done]

/-! ## Steps that are taken -/

theorem times_go_eq_ok {r : Reader α} {n : Nat} {acc as : List α} {s s' : Input}
    (h : times.go r n acc s = .ok as s') :
    ∃ more, as = acc.reverse ++ more ∧ more.length = n ∧ ∀ a ∈ more, ∃ t t', r t = .ok a t' := by
  induction n generalizing acc s with
  | zero =>
    obtain ⟨rfl, -⟩ := step_pure_eq_ok.1 h
    exact ⟨[], by simp⟩
  | succ n ih =>
    obtain ⟨a, t, read, h⟩ := step_bind_eq_ok.1 h
    obtain ⟨more, rfl, rfl, each⟩ := ih h
    refine ⟨a :: more, by simp, rfl, ?_⟩
    intro b hb
    rcases List.mem_cons.1 hb with rfl | hb
    · exact ⟨s, t, read⟩
    · exact each b hb

theorem times_eq_ok {r : Reader α} {n : Nat} {as : List α} {s s' : Input}
    (h : times n r s = .ok as s') : as.length = n ∧ ∀ a ∈ as, ∃ t t', r t = .ok a t' := by
  obtain ⟨more, rfl, length, each⟩ := times_go_eq_ok h
  exact ⟨length, each⟩

theorem table_eq_ok {r : Reader α} {as : List α} {s s' : Input} (h : table r s = .ok as s') :
    as.length < 65536 ∧ ∀ a ∈ as, ∃ t t', r t = .ok a t' := by
  obtain ⟨n, t, -, h⟩ := step_bind_eq_ok.1 h
  obtain ⟨length, each⟩ := times_eq_ok h
  exact ⟨length ▸ n.toNat_lt, each⟩

theorem parse_eq_ok {r : Reader α} {bs : Bytes} {a : α} (h : r.parse bs = .ok a) :
    ∃ s', r (.ofBytes bs) = .ok a s' := by
  unfold parse at h
  split at h
  · rename_i found
    cases h
    exact ⟨_, found⟩
  · cases h

theorem forall₂_map {r : Reader α} {f : α → Bytes} {as : List α}
    (each : ∀ a ∈ as, ∀ pos, r.Takes pos (f a) a) :
    List.Forall₂ (fun bs a => ∀ pos, r.Takes pos bs a) (as.map f) as := by
  induction as with
  | nil => exact .nil
  | cons a as ih =>
    exact .cons (each a List.mem_cons_self) (ih fun b hb => each b (List.mem_cons_of_mem a hb))

/-! ## What is taken -/

/-- Wherever the reader stops after `pos`, the bytes that it has taken are as many as `P` says of its
answer. -/
def Yields (r : Reader α) (pos : Nat) (P : Nat → α → Prop) : Prop :=
  ∀ rest a s', r ⟨pos, rest⟩ = .ok a s' →
    ∃ n, s'.pos = pos + n ∧ rest.length = n + s'.rest.length ∧ P n a

namespace Yields

variable {P : Nat → α → Prop} {Q : Nat → β → Prop}

theorem pure {a : α} (h : P 0 a) : Yields (Pure.pure a) pos P := by
  intro rest b s' done
  obtain ⟨rfl, rfl⟩ := step_pure_eq_ok.1 done
  exact ⟨0, rfl, (Nat.zero_add _).symm, h⟩

theorem throw {e : Error} : Yields (throw e : Reader α) pos P := fun _ _ _ done => nomatch done

theorem bind {r : Reader α} {f : α → Reader β} (first : r.Yields pos P)
    (second : ∀ n a, P n a → (f a).Yields (pos + n) fun m b => Q (n + m) b) :
    (r >>= f).Yields pos Q := by
  intro rest b s' done
  obtain ⟨a, s, read, done⟩ := step_bind_eq_ok.1 done
  obtain ⟨n, moved, length, holds⟩ := first rest a s read
  obtain ⟨p, left⟩ := s
  obtain rfl : p = pos + n := moved
  obtain ⟨m, moved', length', holds'⟩ := second n a holds left b s' done
  exact ⟨n + m, by omega, by simp only at length; omega, holds'⟩

/-- A last step that only answers takes no bytes. -/
theorem map {r : Reader α} {f : α → β} (h : r.Yields pos fun n a => Q n (f a)) :
    Yields (do return f (← r)) pos Q :=
  h.bind fun _ _ holds => pure holds

theorem mono {r : Reader α} {P' : Nat → α → Prop} (h : r.Yields pos P)
    (weaker : ∀ n a, P n a → P' n a) : r.Yields pos P' := fun rest a s' done => by
  obtain ⟨n, moved, length, holds⟩ := h rest a s' done
  exact ⟨n, moved, length, weaker n a holds⟩

theorem u8 : Reader.u8.Yields pos fun n _ => n = 1 := by
  rintro (_ | ⟨b, rest⟩) a s' done
  · cases done
  · cases done
    exact ⟨1, rfl, by rw [List.length_cons, Nat.add_comm], rfl⟩

theorem u16 : Reader.u16.Yields pos fun n _ => n = 2 := by
  rintro (_ | ⟨b, _ | ⟨c, rest⟩⟩) a s' done
  · cases done
  · cases done
  · cases done
    exact ⟨2, rfl, by simp only [List.length_cons]; omega, rfl⟩

theorem u32 : Reader.u32.Yields pos fun n _ => n = 4 := by
  rintro (_ | ⟨b, _ | ⟨c, _ | ⟨d, _ | ⟨e, rest⟩⟩⟩⟩) a s' done
  · cases done
  · cases done
  · cases done
  · cases done
  · cases done
    exact ⟨4, rfl, by simp only [List.length_cons]; omega, rfl⟩

theorem i8 : Reader.i8.Yields pos fun n _ => n = 1 := u8.bind fun _ _ one => pure one

theorem i16 : Reader.i16.Yields pos fun n _ => n = 2 := u16.bind fun _ _ two => pure two

theorem i32 : Reader.i32.Yields pos fun n _ => n = 4 := u32.bind fun _ _ four => pure four

theorem bytes (k : Nat) : (Reader.bytes k).Yields pos fun n _ => n = k := by
  intro rest a s' done
  unfold Reader.bytes at done
  split at done
  · rename_i taken left found
    cases done
    obtain ⟨rfl, rfl⟩ := Bytes.splitAt?_eq_some found
    exact ⟨_, rfl, List.length_append, rfl⟩
  · cases done

theorem times_go {r : Reader α} {k : Nat} (each : ∀ pos, r.Yields pos fun n _ => n = k)
    (count : Nat) (acc : List α) : (Reader.times.go r count acc).Yields pos fun n as =>
      n = k * count ∧ as.length = acc.length + count := by
  induction count generalizing pos acc with
  | zero => exact pure ⟨rfl, List.length_reverse⟩
  | succ count ih =>
    refine (each pos).bind fun n a length => (ih (a :: acc)).mono fun m as ⟨total, many⟩ => ?_
    rw [List.length_cons] at many
    rw [length, total, Nat.mul_succ]
    omega

/-- Items of one length take that length each. -/
theorem times {r : Reader α} {k : Nat} (each : ∀ pos, r.Yields pos fun n _ => n = k)
    (count : Nat) : (Reader.times count r).Yields pos fun n as =>
      n = k * count ∧ as.length = count :=
  (times_go each count []).mono fun _ _ ⟨total, many⟩ => ⟨total, many.trans (Nat.zero_add _)⟩

end Yields

end Reader

end Weft
