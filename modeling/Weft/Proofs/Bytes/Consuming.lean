import Weft.Proofs.Bytes.Reading

/-!
# Bytes that are taken

`Reader.Consumes r W` says that the bytes that `r` takes when it succeeds are related to its answer
by `W`, where `W` says of a format which bytes may stand for a value. It is what reading says about
the bytes, as `Takes` is what writing says about reading; `Consumes.bind` puts the formats of the
parts together.
-/

namespace Weft

namespace Bytes

theorem ofU16_toU16 (a b : UInt8) : ofU16 (toU16 a b) = [a, b] := by
  have high := a.toNat_lt
  have low := b.toNat_lt
  refine congrArg₂ (fun x y => [x, y]) (UInt8.toNat_inj.1 ?_) (UInt8.toNat_inj.1 ?_)
  · simp [toNat_toU16, Nat.shiftRight_eq_div_pow]
    omega
  · simp [toNat_toU16]

theorem ofU32_toU32 (a b c d : UInt8) : ofU32 (toU32 a b c d) = [a, b, c, d] := by
  have wa := a.toNat_lt
  have wb := b.toNat_lt
  have wc := c.toNat_lt
  have wd := d.toNat_lt
  have cons {x y : UInt8} {xs ys : Bytes} (head : x.toNat = y.toNat) (tail : xs = ys) :
      x :: xs = y :: ys := by rw [UInt8.toNat_inj.1 head, tail]
  refine cons ?_ (cons ?_ (cons ?_ (cons ?_ rfl)))
  all_goals
    simp [toNat_toU32, toNat_toU16, Nat.shiftRight_eq_div_pow]
    omega

theorem ofU64_toU64 (a b : UInt32) : ofU64 (toU64 a b) = ofU32 a ++ ofU32 b := by
  have high := a.toNat_lt
  have low := b.toNat_lt
  refine congrArg₂ (fun x y => ofU32 x ++ ofU32 y) (UInt32.toNat_inj.1 ?_) (UInt32.toNat_inj.1 ?_)
  · simp [toNat_toU64, Nat.shiftRight_eq_div_pow]
    omega
  · simp [toNat_toU64]

end Bytes

namespace Reader

variable {α β : Type}

/-- The bytes that the reader takes are related to its answer. -/
def Consumes (r : Reader α) (W : α → Bytes → Prop) : Prop :=
  ∀ s a s', r s = .ok a s' → ∃ bs, s.rest = bs ++ s'.rest ∧ W a bs

namespace Consumes

variable {V : α → Bytes → Prop} {W : β → Bytes → Prop}

theorem pure {b : β} (h : W b []) : Consumes (Pure.pure b) W := by
  intro s a s' done
  obtain ⟨rfl, rfl⟩ := step_pure_eq_ok.1 done
  exact ⟨[], rfl, h⟩

theorem throw {e : Error} : Consumes (throw e : Reader β) W := fun _ _ _ done => nomatch done

theorem bind {r : Reader α} {f : α → Reader β} (first : r.Consumes V)
    (second : ∀ a xs, V a xs → (f a).Consumes fun b ys => W b (xs ++ ys)) :
    (r >>= f).Consumes W := by
  intro s b s' done
  obtain ⟨a, t, read, done⟩ := step_bind_eq_ok.1 done
  obtain ⟨xs, taken, related⟩ := first s a t read
  obtain ⟨ys, taken', related'⟩ := second a xs related t b s' done
  exact ⟨xs ++ ys, by rw [taken, taken', List.append_assoc], related'⟩

/-- A last step that only answers takes no bytes. -/
theorem map {r : Reader α} {f : α → β} (h : r.Consumes fun a bs => W (f a) bs) :
    Consumes (do return f (← r)) W :=
  h.bind fun _ xs related => pure (by rwa [List.append_nil])

theorem mono {r : Reader α} {V' : α → Bytes → Prop} (h : r.Consumes V)
    (weaker : ∀ a bs, V a bs → V' a bs) : r.Consumes V' := fun s a s' done => by
  obtain ⟨bs, taken, related⟩ := h s a s' done
  exact ⟨bs, taken, weaker a bs related⟩

theorem u8 : Reader.u8.Consumes fun b bs => bs = [b] := by
  rintro ⟨pos, _ | ⟨a, rest⟩⟩ b s' done
  · cases done
  · cases done
    exact ⟨[a], rfl, rfl⟩

theorem u16 : Reader.u16.Consumes fun n bs => bs = Bytes.ofU16 n := by
  rintro ⟨pos, _ | ⟨a, _ | ⟨b, rest⟩⟩⟩ n s' done
  · cases done
  · cases done
  · cases done
    exact ⟨[a, b], rfl, (Bytes.ofU16_toU16 a b).symm⟩

theorem u32 : Reader.u32.Consumes fun n bs => bs = Bytes.ofU32 n := by
  rintro ⟨pos, _ | ⟨a, _ | ⟨b, _ | ⟨c, _ | ⟨d, rest⟩⟩⟩⟩⟩ n s' done
  · cases done
  · cases done
  · cases done
  · cases done
  · cases done
    exact ⟨[a, b, c, d], rfl, (Bytes.ofU32_toU32 a b c d).symm⟩

theorem u64 : Reader.u64.Consumes fun n bs => bs = Bytes.ofU64 n := by
  intro s n s' done
  unfold Reader.u64 at done
  split at done
  · rename_i a b c d e f g h rest found
    cases done
    refine ⟨[a, b, c, d, e, f, g, h], found, ?_⟩
    show _ = Bytes.ofU64 _
    rw [Bytes.ofU64_toU64, Bytes.ofU32_toU32, Bytes.ofU32_toU32]
    rfl
  · cases done

theorem i32 : Reader.i32.Consumes fun n bs => bs = Bytes.ofU32 n.toUInt32 := u32.map

theorem i64 : Reader.i64.Consumes fun n bs => bs = Bytes.ofU64 n.toUInt64 := u64.map

theorem bytes (n : Nat) :
    (Reader.bytes n).Consumes fun found bs => bs = found ∧ found.length = n := by
  intro s found s' done
  unfold Reader.bytes at done
  split at done
  · rename_i taken rest split
    cases done
    obtain ⟨whole, length⟩ := Bytes.splitAt?_eq_some split
    exact ⟨found, whole, rfl, length⟩
  · cases done

theorem times_go {r : Reader α} (item : r.Consumes V) (n : Nat) (acc : List α) :
    (Reader.times.go r n acc).Consumes fun as bs => ∃ more parts, as = acc.reverse ++ more ∧
      more.length = n ∧ List.Forall₂ V more parts ∧ bs = parts.flatten := by
  induction n generalizing acc with
  | zero => exact pure ⟨[], [], (List.append_nil _).symm, rfl, .nil, rfl⟩
  | succ n ih =>
    refine item.bind fun a xs related => (ih (a :: acc)).mono ?_
    rintro as ys ⟨more, parts, rfl, rfl, each, rfl⟩
    exact ⟨a :: more, xs :: parts, by simp, rfl, .cons related each, rfl⟩

/-- Items take their bytes one behind the other. -/
theorem times {r : Reader α} (item : r.Consumes V) (n : Nat) :
    (Reader.times n r).Consumes fun as bs => as.length = n ∧
      ∃ parts, List.Forall₂ V as parts ∧ bs = parts.flatten := by
  refine (times_go item n []).mono ?_
  rintro as bs ⟨more, parts, rfl, length, each, rfl⟩
  exact ⟨length, parts, each, rfl⟩

/-- Items take their bytes behind their number. -/
theorem table {r : Reader α} (item : r.Consumes V) : (Reader.table r).Consumes (Tabled V) := by
  refine u16.bind fun n xs number => (times item n.toNat).mono ?_
  rintro as ys ⟨length, parts, each, rfl⟩
  refine ⟨length ▸ n.toNat_lt, parts, each, ?_⟩
  rw [number, length, UInt16.ofNat_toNat]

end Consumes

end Reader

end Weft
