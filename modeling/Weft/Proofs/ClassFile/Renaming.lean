import Weft.Proofs.ClassFile.Histories

/-!
# Renamed class files

A class is renamed in its pool. Every text stays where it was, and every class but the renamed one
keeps its name, so that a well-formed class file stays one: what is written of it is read as a class
of the new name with the members of the old one.
-/

namespace Weft

variable {options : DecodeOptions} {limit : Nat} {p q : Pool}

/-! ## Other pools with the same texts -/

/-- Each text of the first pool stands at its index in the second. -/
def Pool.KeepsTexts (p q : Pool) : Prop :=
  ∀ index text, p.utf8 index = .ok text → q.utf8 index = .ok text

theorem Attribute.WellFormed.mono {a : Attribute} (h : a.WellFormed limit p)
    (kept : p.KeepsTexts q) : a.WellFormed limit q := by
  induction h with
  | code named some_code short _ ih => exact .code (kept _ _ named) some_code short ih
  | plain named standard plain within => exact .plain (kept _ _ named) standard plain within
  | raw named unknown => exact .raw (kept _ _ named) unknown

theorem Member.WellFormed.mono {m : Member} (h : m.WellFormed limit p) (kept : p.KeepsTexts q) :
    m.WellFormed limit q where
  name := h.name.imp fun text named => kept _ text named
  descriptor := h.descriptor.imp fun text typed => kept _ text typed
  attributes a mem := (h.attributes a mem).mono kept

/-! ## Renaming -/

namespace Pool

/-- The second pool is the first in which the class at the index has that name. -/
structure Renames (p : Pool) (index : UInt16) (name : String) (q : Pool) : Prop where
  laid : q.Laid
  texts : p.KeepsTexts q
  named : q.className index = .ok (.ofText name)
  others : ∀ i old, p.className i = .ok old → i = index ∨ q.className i = .ok old

theorem className_eq_ok {index : UInt16} {name : ClassName} (h : p.className index = .ok name) :
    ∃ place text, p.get index = .ok (.classRef place) ∧ p.utf8 place = .ok text ∧
      .ofText text = name := by
  obtain ⟨c, found, h⟩ := except_bind_eq_ok.1 h
  split at h
  · obtain ⟨text, named, h⟩ := except_bind_eq_ok.1 h
    cases h
    exact ⟨_, text, found, named, rfl⟩
  · cases h

theorem renames_of_rename {index : UInt16} {name : String} (steady : p.Steady)
    (renamed : p.rename index name = .ok q) (small : q.size < 65536) :
    p.Renames index name q := by
  have served : (Request.rename index name).serve p = (.ok none, q) := by
    simp only [Request.serve, renamed]
  have small : ((Request.rename index name).serve p).2.size < 65536 := by
    rw [served]
    exact small
  obtain ⟨serves, later⟩ := steady.rename small
  rw [served] at later
  have texts : p.KeepsTexts q := by
    intro i text read
    rcases serves.keeps i _ (utf8_eq_ok read) with kept | ⟨_, _, text_is_class, -⟩
    · rw [served] at kept
      exact except_bind_eq_ok.2 ⟨_, kept, rfl⟩
    · cases text_is_class
  refine ⟨later.laid, texts, ?_, fun i old read => ?_⟩
  · rcases rename_cases p index name with ⟨place, found, -⟩ | ⟨-, e, failed⟩
    · have named := (serves.renames index name place rfl found).2
      rwa [served] at named
    · cases renamed.symm.trans failed
  · obtain ⟨place, text, found, named, rfl⟩ := className_eq_ok read
    rcases serves.keeps i _ found with kept | ⟨_, _, -, same⟩
    · rw [served] at kept
      exact .inr (except_bind_eq_ok.2 ⟨_, kept, except_bind_eq_ok.2
        ⟨text, texts place text named, rfl⟩⟩)
    · cases same
      exact .inl rfl

namespace Renames

variable {index : UInt16} {name : String}

theorem className (h : p.Renames index name q) {i : UInt16} {old : ClassName}
    (read : p.className i = .ok old) : ∃ new, q.className i = .ok new := by
  rcases h.others i old read with rfl | kept
  · exact ⟨_, h.named⟩
  · exact ⟨old, kept⟩

end Renames

end Pool

namespace ClassFile

variable {c : ClassFile} {name : String}

theorem WellFormed.rename (h : c.WellFormed limit) (renamed : c.pool.Renames c.thisClass name q) :
    ({ c with pool := q } : ClassFile).WellFormed limit where
  pool := renamed.laid
  version := h.version
  thisClass := ⟨_, renamed.named⟩
  superClass some_super := by
    obtain ⟨above, read⟩ := h.superClass some_super
    exact renamed.className read
  interfaces i mem := by
    obtain ⟨interface, read⟩ := h.interfaces i mem
    exact renamed.className read
  fields m mem := (h.fields m mem).mono renamed.texts
  methods m mem := (h.methods m mem).mono renamed.texts
  attributes a mem := (h.attributes a mem).mono renamed.texts

theorem steady_of_ofBytes {image : Bytes} (h : ofBytes options image = .ok c) : c.pool.Steady :=
  ⟨(decoded_of_ofBytes h).readable.pool.laid, (decoded_of_ofBytes h).readable.pool.known⟩

/-- What is written of a renamed class is read as that class, whose members are those it had. -/
theorem ofBytes_renamed {image image' : Bytes} (decoded : ofBytes options image = .ok c)
    (renamed : c.pool.rename c.thisClass name = .ok q)
    (written : ({ c with pool := q } : ClassFile).toBytes = .ok image') :
    ∃ r, ofBytes options image' = .ok { c with pool := r } ∧ r.entries = q.entries ∧
      c.pool.Renames c.thisClass name q := by
  obtain ⟨pool, pooled, -⟩ := except_bind_eq_ok.1 written
  have renames := Pool.renames_of_rename (steady_of_ofBytes decoded) renamed
    (Pool.size_of_write pooled)
  obtain ⟨r, same, read⟩ :=
    decodes_toBytes ((wellFormed_of_ofBytes decoded).rename renames) written
  exact ⟨r, read, same, renames⟩

end ClassFile

end Weft
