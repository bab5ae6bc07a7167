import Weft.Proofs.ClassFile.Growth
import Weft.Proofs.Text.ModifiedUtf8

/-!
# Pools written and read back

Pools that are read are sound, and a sound pool is read back from its bytes.
-/

namespace Weft

theorem Reader.Takes.text {pos : Nat} {s : String} (short : (Text.encodeModified s).length < 65536) :
    Reader.text.Takes pos (Bytes.ofU16 (UInt16.ofNat (Text.encodeModified s).length) ++
      Text.encodeModified s) s := by
  refine (u16 _).bind ?_
  rw [UInt16.toNat_ofNat_of_lt' short, ← List.append_nil (Text.encodeModified s)]
  refine (bytes (by rw [List.append_nil])).bind ?_
  rw [List.append_nil, Text.decodeModified_encodeModified]
  exact pure s

namespace Pool

/-! ## Reading -/

theorem readConstant_usable {tag : UInt8} {index : Nat} {s s' : Input} {c : Constant}
    (h : readConstant tag index s = .ok c s') : c ≠ .unusable := by
  unfold readConstant at h
  split at h
  all_goals first
    | (obtain ⟨a, t, -, h⟩ := step_bind_eq_ok.1 h
       first
        | (obtain ⟨rfl, -⟩ := step_pure_eq_ok.1 h; simp)
        | (obtain ⟨b, u, -, h⟩ := step_bind_eq_ok.1 h
           obtain ⟨rfl, -⟩ := step_pure_eq_ok.1 h
           simp))
    | cases h

theorem sound_of_fill {count fuel : Nat} {p q : Pool} {s s' : Input} (sound : p.Sound)
    (h : fill count fuel p s = .ok q s') : q.Sound := by
  induction fuel generalizing p s with
  | zero =>
    obtain ⟨rfl, -⟩ := step_pure_eq_ok.1 h
    exact sound
  | succ fuel ih =>
    unfold fill at h
    split at h
    · obtain ⟨tag, t, -, h⟩ := step_bind_eq_ok.1 h
      obtain ⟨c, u, read, h⟩ := step_bind_eq_ok.1 h
      exact ih (sound.push (readConstant_usable read)) h
    · obtain ⟨rfl, -⟩ := step_pure_eq_ok.1 h
      exact sound

/-- A pool that is read is sound and small enough to be written. -/
theorem sound_of_read {p : Pool} {s s' : Input} (h : read s = .ok p s') :
    p.Sound ∧ p.size < 65536 := by
  obtain ⟨count, t, -, h⟩ := step_bind_eq_ok.1 h
  split at h
  · cases h
  · obtain ⟨q, u, filled, h⟩ := step_bind_eq_ok.1 h
    split at h
    · cases h
    · rename_i same
      obtain ⟨rfl, -⟩ := step_pure_eq_ok.1 h
      have same : q.size = count.toNat := by simpa using same
      exact ⟨sound_of_fill sound_empty filled, same ▸ count.toNat_lt⟩

/-! ## Writing -/

/-- What is written of a constant is read as the constant behind its tag. -/
theorem takes_constantBytes {c : Constant} {bs : Bytes} (usable : c ≠ .unusable)
    (h : constantBytes c = .ok bs) :
    ∃ tag rest, bs = tag :: rest ∧ ∀ index pos, (readConstant tag index).Takes pos rest c := by
  cases c with
  | unusable => exact absurd rfl usable
  | utf8 text =>
    simp only [constantBytes] at h
    split at h
    · rename_i short
      cases h
      exact ⟨1, _, rfl, fun index pos => (Reader.Takes.text short).map⟩
    · cases h
  | integer v => cases h; exact ⟨3, _, rfl, fun index pos => (Reader.Takes.i32 v).map⟩
  | float bits => cases h; exact ⟨4, _, rfl, fun index pos => (Reader.Takes.u32 bits).map⟩
  | long v => cases h; exact ⟨5, _, rfl, fun index pos => (Reader.Takes.i64 v).map⟩
  | double bits => cases h; exact ⟨6, _, rfl, fun index pos => (Reader.Takes.u64 bits).map⟩
  | classRef name => cases h; exact ⟨7, _, rfl, fun index pos => (Reader.Takes.u16 name).map⟩
  | string text => cases h; exact ⟨8, _, rfl, fun index pos => (Reader.Takes.u16 text).map⟩
  | fieldRef a b =>
    cases h
    exact ⟨9, _, rfl, fun index pos => (Reader.Takes.u16 a).bind (Reader.Takes.u16 b).map⟩
  | methodRef a b =>
    cases h
    exact ⟨10, _, rfl, fun index pos => (Reader.Takes.u16 a).bind (Reader.Takes.u16 b).map⟩
  | interfaceMethodRef a b =>
    cases h
    exact ⟨11, _, rfl, fun index pos => (Reader.Takes.u16 a).bind (Reader.Takes.u16 b).map⟩
  | nameAndType a b =>
    cases h
    exact ⟨12, _, rfl, fun index pos => (Reader.Takes.u16 a).bind (Reader.Takes.u16 b).map⟩
  | methodHandle kind a =>
    cases h
    exact ⟨15, _, rfl, fun index pos => (Reader.Takes.u8 kind).bind (Reader.Takes.u16 a).map⟩
  | methodType a => cases h; exact ⟨16, _, rfl, fun index pos => (Reader.Takes.u16 a).map⟩
  | dynamic a b =>
    cases h
    exact ⟨17, _, rfl, fun index pos => (Reader.Takes.u16 a).bind (Reader.Takes.u16 b).map⟩
  | invokeDynamic a b =>
    cases h
    exact ⟨18, _, rfl, fun index pos => (Reader.Takes.u16 a).bind (Reader.Takes.u16 b).map⟩
  | module a => cases h; exact ⟨19, _, rfl, fun index pos => (Reader.Takes.u16 a).map⟩
  | package a => cases h; exact ⟨20, _, rfl, fun index pos => (Reader.Takes.u16 a).map⟩

/-- The pool with constants added one behind the other. -/
def pushAll (cs : List Constant) (p : Pool) : Pool := cs.foldl (fun p c => (p.push c).2) p

theorem entries_pushAll (cs : List Constant) (p : Pool) :
    (pushAll cs p).entries.toList = p.entries.toList ++ slots cs := by
  induction cs generalizing p with
  | nil => simp [pushAll, slots]
  | cons c cs ih =>
    rw [pushAll, List.foldl_cons]
    have rest := ih (p.push c).2
    rw [pushAll] at rest
    rw [rest, entries_push, List.append_assoc, ← slots_append]
    rfl

theorem size_push (c : Constant) (p : Pool) : (p.push c).2.size = p.size + (slots [c]).length := by
  have lengths := congrArg List.length (entries_push c p)
  simpa [size] using lengths

theorem length_slots_pos (c : Constant) : 0 < (slots [c]).length := by
  rw [slots_singleton]
  split <;> simp

theorem length_le_slots (cs : List Constant) : cs.length ≤ (slots cs).length := by
  induction cs with
  | nil => exact Nat.le_refl 0
  | cons c cs ih =>
    have split := congrArg List.length (slots_append [c] cs)
    have := length_slots_pos c
    rw [List.length_append] at split
    simp only [List.length_cons, List.singleton_append] at split ⊢
    omega

/-- Slots of constants are filled from the bytes of the constants. -/
theorem takes_fill {cs : List Constant} {parts : List Bytes} (usable : ∀ c ∈ cs, c ≠ .unusable)
    (written : List.Forall₂ (fun c bs => constantBytes c = .ok bs) cs parts) {p : Pool}
    {count fuel pos : Nat} (whole : p.size + (slots cs).length = count) (enough : cs.length ≤ fuel) :
    (fill count fuel p).Takes pos parts.flatten (pushAll cs p) := by
  induction written generalizing p fuel pos with
  | nil =>
    have full : ¬ p.size < count := by simp [slots] at whole; omega
    cases fuel with
    | zero => exact .pure p
    | succ fuel =>
      rw [fill, if_neg full]
      exact .pure p
  | @cons c bs cs parts head _ ih =>
    obtain ⟨tag, rest, rfl, taken⟩ := takes_constantBytes (usable c List.mem_cons_self) head
    have split := congrArg List.length (slots_append [c] cs)
    rw [List.length_append, List.singleton_append] at split
    have := length_slots_pos c
    obtain ⟨fuel, rfl⟩ : ∃ k, fuel = k + 1 := ⟨fuel - 1, by simp at enough; omega⟩
    have later := @ih (fun d hd => usable d (List.mem_cons_of_mem c hd)) (p.push c).2 fuel
      (pos + 1 + rest.length) (by rw [size_push]; omega) (by simpa using enough)
    rw [fill, if_pos (by omega)]
    exact (Reader.Takes.u8 tag).bind ((taken p.size (pos + 1)).bind later)

/-- Unusable slots have no bytes. -/
theorem forall₂_slots {cs : List Constant} {parts : List Bytes}
    (h : List.Forall₂ (fun c bs => constantBytes c = .ok bs) (slots cs) parts) :
    ∃ parts', List.Forall₂ (fun c bs => constantBytes c = .ok bs) cs parts' ∧
      parts.flatten = parts'.flatten := by
  induction cs generalizing parts with
  | nil =>
    cases h
    exact ⟨[], .nil, rfl⟩
  | cons c cs ih =>
    rw [show c :: cs = [c] ++ cs from rfl, slots_append, slots_singleton] at h
    split at h
    · obtain _ | ⟨head, _ | ⟨empty, tail⟩⟩ := h
      cases empty
      obtain ⟨parts', written, same⟩ := ih tail
      exact ⟨_ :: parts', .cons head written, by simp [same]⟩
    · obtain _ | ⟨head, tail⟩ := h
      obtain ⟨parts', written, same⟩ := ih tail
      exact ⟨_ :: parts', .cons head written, by simp [same]⟩

theorem sound_pushAll {cs : List Constant} (usable : ∀ c ∈ cs, c ≠ .unusable) {p : Pool}
    (sound : p.Sound) : (pushAll cs p).Sound := by
  induction cs generalizing p with
  | nil => exact sound
  | cons c cs ih =>
    exact ih (fun d hd => usable d (List.mem_cons_of_mem c hd))
      (sound.push (usable c List.mem_cons_self))

/-- A sound pool is read back from its bytes, with the same constants. -/
theorem takes_write {p : Pool} (sound : p.Sound) {bs : Bytes} (h : p.write = .ok bs) :
    p.size < 65536 ∧ ∃ q, q.entries = p.entries ∧ ∀ pos, read.Takes pos bs q := by
  unfold write at h
  split at h
  · rename_i small
    refine ⟨small, ?_⟩
    obtain ⟨parts, written, rfl⟩ := except_map_eq_ok.1 h
    obtain ⟨cs, laid, usable⟩ := sound.laid
    rw [laid, except_mapM_eq_ok] at written
    obtain _ | ⟨empty, written⟩ := written
    cases empty
    obtain ⟨parts', each, same⟩ := forall₂_slots written
    have size : p.size = 1 + (slots cs).length := by
      have length := congrArg List.length laid
      rw [List.length_cons] at length
      simpa [Pool.size, Nat.add_comm] using length
    have count : (UInt16.ofNat p.size).toNat = p.size := UInt16.toNat_ofNat_of_lt' small
    have entries : (pushAll cs empty).entries = p.entries :=
      Array.toList_inj.1 ((entries_pushAll cs empty).trans laid.symm)
    refine ⟨pushAll cs empty, entries, fun pos => ?_⟩
    refine (Reader.Takes.u16 _).bind ?_
    have some_slot : UInt16.ofNat p.size ≠ 0 := fun zero => by
      have := congrArg UInt16.toNat zero
      rw [count] at this
      simp at this
      omega
    have last : (pushAll cs empty).size = p.size := congrArg Array.size entries
    have filled : (fill p.size p.size empty).Takes (pos + 2) parts'.flatten (pushAll cs empty) :=
      takes_fill usable each (show 1 + _ = p.size from size.symm)
        (by have := length_le_slots cs; omega)
    rw [if_neg some_slot, List.flatten_cons, List.nil_append, same, ← List.append_nil parts'.flatten,
      count]
    refine filled.bind ?_
    rw [last]
    simp only [bne_self_eq_false, Bool.false_eq_true, if_false]
    exact .pure _
  · cases h

end Pool

end Weft
