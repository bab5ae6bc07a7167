import Weft.Proofs.Bytes.Consuming

/-!
# Bytes that spell an answer

`Reader.Spells r pos W` says that `W` is all there is to know about what `r` reads from position
`pos`: it answers `a` just if what is left begins with bytes that `W` relates to `a`, and it takes
those. `Spells.bind` puts the formats of the parts together, where the format of a later part may
depend on what stands before it.
-/

namespace Weft

namespace Reader

variable {α β : Type} {pos : Nat}

/-- From `pos` the reader takes the bytes that `W` relates to an answer, and no others. -/
structure Spells (r : Reader α) (pos : Nat) (W : α → Bytes → Prop) : Prop where
  takes : ∀ a bs, W a bs → r.Takes pos bs a
  taken : ∀ rest a s', r ⟨pos, rest⟩ = .ok a s' →
    ∃ bs, W a bs ∧ rest = bs ++ s'.rest ∧ s'.pos = pos + bs.length

namespace Spells

variable {r : Reader α} {f : α → Reader β} {V V' : α → Bytes → Prop} {W : α → β → Bytes → Prop}

theorem congr (h : r.Spells pos V) (same : ∀ a bs, V a bs ↔ V' a bs) : r.Spells pos V' where
  takes a bs related := h.takes a bs ((same a bs).2 related)
  taken rest a s' done := by
    obtain ⟨bs, related, taken⟩ := h.taken rest a s' done
    exact ⟨bs, (same a bs).1 related, taken⟩

theorem pure (a : α) : Spells (Pure.pure a) pos fun b bs => b = a ∧ bs = [] where
  takes := by
    rintro _ _ ⟨rfl, rfl⟩
    exact .pure _
  taken rest b s' done := by
    obtain ⟨rfl, rfl⟩ := step_pure_eq_ok.1 done
    exact ⟨[], ⟨rfl, rfl⟩, rfl, rfl⟩

theorem throw (e : Error) : Spells (throw e : Reader α) pos fun _ _ => False where
  takes _ _ absurd := absurd.elim
  taken _ _ _ done := nomatch done

theorem bind (first : r.Spells pos V)
    (second : ∀ a xs, V a xs → (f a).Spells (pos + xs.length) (W a)) :
    (r >>= f).Spells pos fun b bs => ∃ a xs ys, V a xs ∧ W a b ys ∧ bs = xs ++ ys where
  takes := by
    rintro b _ ⟨a, xs, ys, related, related', rfl⟩
    exact (first.takes a xs related).bind ((second a xs related).takes b ys related')
  taken rest b s'' done := by
    obtain ⟨a, ⟨pos', rest'⟩, read, done⟩ := step_bind_eq_ok.1 done
    obtain ⟨xs, related, front, moved⟩ := first.taken rest a _ read
    obtain rfl : pos' = pos + xs.length := moved
    obtain ⟨ys, related', back, moved'⟩ := (second a xs related).taken rest' b s'' done
    refine ⟨xs ++ ys, ⟨a, xs, ys, related, related', rfl⟩, ?_, ?_⟩
    · rw [List.append_assoc, ← back]
      exact front
    · rw [moved', List.length_append, Nat.add_assoc]

/-- A part whose bytes its answer tells. -/
theorem next {g : α → Bytes} (first : r.Spells pos fun a bs => bs = g a)
    (second : ∀ a, (f a).Spells (pos + (g a).length) (W a)) :
    (r >>= f).Spells pos fun b bs => ∃ a ys, W a b ys ∧ bs = g a ++ ys := by
  refine (first.bind fun a xs same => same ▸ second a).congr fun b bs => ?_
  constructor
  · rintro ⟨a, _, ys, rfl, related, rfl⟩
    exact ⟨a, ys, related, rfl⟩
  · rintro ⟨a, ys, related, rfl⟩
    exact ⟨a, _, ys, rfl, related, rfl⟩

/-- A last step that only answers takes no bytes. -/
theorem map {g : α → β} (h : r.Spells pos V) :
    Spells (do return g (← r)) pos fun b bs => ∃ a, b = g a ∧ V a bs := by
  refine (h.bind fun a xs _ => pure (g a)).congr fun b bs => ?_
  constructor
  · rintro ⟨a, xs, _, related, ⟨rfl, rfl⟩, rfl⟩
    exact ⟨a, rfl, by rwa [List.append_nil]⟩
  · rintro ⟨a, rfl, related⟩
    exact ⟨a, bs, [], related, ⟨rfl, rfl⟩, (List.append_nil bs).symm⟩

/-! ## Parts -/

theorem u8 : Reader.u8.Spells pos fun b bs => bs = [b] where
  takes := by
    rintro b _ rfl
    exact .u8 b
  taken := by
    rintro (_ | ⟨a, rest⟩) b s' done
    · cases done
    · cases done
      exact ⟨[a], rfl, rfl, rfl⟩

theorem u16 : Reader.u16.Spells pos fun n bs => bs = Bytes.ofU16 n where
  takes := by
    rintro n _ rfl
    exact .u16 n
  taken := by
    rintro (_ | ⟨a, _ | ⟨b, rest⟩⟩) n s' done
    · cases done
    · cases done
    · cases done
      exact ⟨[a, b], (Bytes.ofU16_toU16 a b).symm, rfl, rfl⟩

theorem u32 : Reader.u32.Spells pos fun n bs => bs = Bytes.ofU32 n where
  takes := by
    rintro n _ rfl
    exact .u32 n
  taken := by
    rintro (_ | ⟨a, _ | ⟨b, _ | ⟨c, _ | ⟨d, rest⟩⟩⟩⟩) n s' done
    · cases done
    · cases done
    · cases done
    · cases done
    · cases done
      exact ⟨[a, b, c, d], (Bytes.ofU32_toU32 a b c d).symm, rfl, rfl⟩

/-- An answer in another form, which tells the first. -/
theorem recode {g : α → β} {h : β → α} {e : α → Bytes} (first : r.Spells pos fun a bs => bs = e a)
    (back : ∀ a, h (g a) = a) (forth : ∀ b, g (h b) = b) :
    Spells (do return g (← r)) pos fun b bs => bs = e (h b) := by
  refine first.map.congr fun b bs => ?_
  constructor
  · rintro ⟨a, rfl, rfl⟩
    rw [back]
  · rintro rfl
    exact ⟨h b, (forth b).symm, rfl⟩

theorem i8 : Reader.i8.Spells pos fun n bs => bs = [n.toUInt8] :=
  u8.recode (fun _ => rfl) fun _ => rfl

theorem i16 : Reader.i16.Spells pos fun n bs => bs = Bytes.ofU16 n.toUInt16 :=
  u16.recode (fun _ => rfl) fun _ => rfl

theorem i32 : Reader.i32.Spells pos fun n bs => bs = Bytes.ofU32 n.toUInt32 :=
  u32.recode (fun _ => rfl) fun _ => rfl

theorem bytes (k : Nat) : (Reader.bytes k).Spells pos fun found bs => bs = found ∧ bs.length = k where
  takes := by
    rintro found _ ⟨rfl, length⟩
    exact .bytes length
  taken rest found s' done := by
    unfold Reader.bytes at done
    split at done
    · rename_i taken left split
      cases done
      obtain ⟨rfl, rfl⟩ := Bytes.splitAt?_eq_some split
      exact ⟨found, ⟨rfl, rfl⟩, rfl, rfl⟩
    · cases done

/-! ## Items -/

theorem times_go (item : ∀ pos, r.Spells pos V) (n : Nat) (acc : List α) :
    (Reader.times.go r n acc).Spells pos fun as bs => ∃ more parts, as = acc.reverse ++ more ∧
      more.length = n ∧ List.Forall₂ V more parts ∧ bs = parts.flatten := by
  induction n generalizing pos acc with
  | zero =>
    refine (pure acc.reverse).congr fun as bs => ?_
    constructor
    · rintro ⟨rfl, rfl⟩
      exact ⟨[], [], (List.append_nil _).symm, rfl, .nil, rfl⟩
    · rintro ⟨more, parts, rfl, none, each, rfl⟩
      obtain rfl := List.length_eq_zero_iff.1 none
      cases each
      exact ⟨List.append_nil _, rfl⟩
  | succ n ih =>
    refine ((item pos).bind fun a xs _ => ih (a :: acc)).congr fun as bs => ?_
    constructor
    · rintro ⟨a, xs, _, related, ⟨more, parts, rfl, rfl, each, rfl⟩, rfl⟩
      exact ⟨a :: more, xs :: parts, by simp, rfl, .cons related each, rfl⟩
    · rintro ⟨_, _, rfl, length, each, rfl⟩
      cases each with
      | nil => cases length
      | @cons a xs more parts related each =>
        exact ⟨a, xs, _, related, ⟨more, parts, by simp, Nat.succ.inj length, each, rfl⟩, rfl⟩

/-- Items spell their bytes one behind the other. -/
theorem times (item : ∀ pos, r.Spells pos V) (n : Nat) :
    (Reader.times n r).Spells pos fun as bs => as.length = n ∧
      ∃ parts, List.Forall₂ V as parts ∧ bs = parts.flatten := by
  refine (times_go item n []).congr fun as bs => ?_
  constructor
  · rintro ⟨more, parts, rfl, length, each, rfl⟩
    exact ⟨length, parts, each, rfl⟩
  · rintro ⟨length, parts, each, rfl⟩
    exact ⟨as, parts, rfl, length, each, rfl⟩

end Spells

end Reader

end Weft
