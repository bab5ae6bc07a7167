import Weft.Proofs.ClassFile.Renaming
import Weft.Proofs.Site.Decoding
import Weft.Proofs.Space.Definitions

/-!
# Which images are taken

An image is taken if it is decoded, the descriptors of its members are read and code stands where it
should. A definition that is refused, for whatever reason, changes no class; one under a new name
keeps the members of the class that it is made from.
-/

namespace Weft

namespace ClassSpace

variable {s s' : ClassSpace} {image : Bytes} {previous? : Option Handle} {handle : Handle}
  {c : ClassFile} {site : ClassSite}

/-! ## Images -/

theorem checkMethod_eq_ok {m : Member} :
    checkMethod c m = .ok () ↔ m.code?.isSome = !m.access.hasAny (.accAbstract ∪ .accNative) := by
  unfold checkMethod
  dsimp only
  cases m.access.hasAny (.accAbstract ∪ .accNative) <;> cases m.code?.isSome
  · exact iff_of_false nofun nofun
  · exact iff_of_true rfl rfl
  · exact iff_of_true rfl rfl
  · exact iff_of_false nofun nofun

theorem check_eq_ok : check image = .ok c ↔ ClassFile.ofBytes {} image = .ok c ∧
    ∀ m ∈ c.methods, m.code?.isSome = !m.access.hasAny (.accAbstract ∪ .accNative) := by
  unfold check
  constructor
  case mp =>
    intro h
    obtain ⟨c', decoded, h⟩ := except_bind_eq_ok.1 h
    obtain ⟨⟨⟩, checked, h⟩ := except_bind_eq_ok.1 h
    cases h
    exact ⟨orRejected_eq_ok.1 decoded,
      fun m mem => checkMethod_eq_ok.1 (except_forM_eq_ok checked m mem)⟩
  case mpr =>
    rintro ⟨decoded, bodies⟩
    exact except_bind_eq_ok.2 ⟨c, orRejected_eq_ok.2 decoded, except_bind_eq_ok.2
      ⟨(), except_forM_ok fun m mem => checkMethod_eq_ok.2 (bodies m mem), rfl⟩⟩

theorem siteOf_eq_ok : siteOf image c = .ok site ↔
    site.artifact = Digest.sha1 image ∧ site.decoding = 0 ∧ site.Tells c :=
  orRejected_eq_ok.trans ClassSite.ofClass_eq_ok

theorem newName_eq {base : ClassName} (dotless : '.' ∉ base.internal.toList) (id : UInt64) :
    newName base id = ⟨base.internal ++ "$Defined" ++ toString id.toNat⟩ :=
  ClassName.ofText_numbered dotless (by decide) id.toNat

/-- The number of a new class is read off its name: before it stands a letter. -/
theorem newName_inj {base base' : ClassName} (dotless : '.' ∉ base.internal.toList)
    (dotless' : '.' ∉ base'.internal.toList) {id id' : UInt64}
    (same : newName base id = newName base' id') : id = id' := by
  rw [newName_eq dotless, newName_eq dotless', ClassName.mk.injEq] at same
  exact UInt64.toNat_inj.1 (ClassName.numbered_inj (by decide) (by decide) same)

/-- The class in the second image has that name and otherwise what the one in the first has. -/
def Renamed (image image' : Bytes) (name : ClassName) : Prop :=
  ∃ c c', ClassFile.ofBytes {} image = .ok c ∧ ClassFile.ofBytes {} image' = .ok c' ∧
    c'.name = .ok name ∧ c' = { c with pool := c'.pool } ∧ c.pool.KeepsTexts c'.pool

/-- The new class is stored with its image, and its site has its name. -/
theorem New.stored {base : ClassName} {d : Definition} (new : s.New image c base d) :
    Renamed image d.image d.handle.name ∧ d.site.name = d.handle.name ∧
      d.site.artifact = Digest.sha1 d.image := by
  obtain ⟨decoded, -⟩ := check_eq_ok.1 new.checked
  obtain ⟨q, renamed, written, sited⟩ := new.renamed
  obtain ⟨r, read, same, renames⟩ := ClassFile.ofBytes_renamed decoded renamed written
  obtain ⟨artifact, -, tells⟩ := siteOf_eq_ok.1 sited
  have spelled : ClassName.ofText d.handle.name.internal = d.handle.name := by
    have dotless := Pool.dotless_of_className new.named
    rw [new.handle]
    dsimp only
    rw [newName_eq dotless]
    exact ClassName.ofText_numbered dotless (by decide) s.nextId.toNat
  have named : q.className c.thisClass = .ok d.handle.name := by
    rw [← spelled]
    exact renames.named
  have named' : r.className c.thisClass = .ok d.handle.name :=
    Pool.className_mono (.of_entries same) named
  refine ⟨⟨c, { c with pool := r }, decoded, read, named', rfl, ?_⟩, ?_, artifact⟩
  · exact fun index text known => Pool.utf8_mono (.of_entries same) (renames.texts index text known)
  · exact Except.ok.inj (tells.name.symm.trans named)

end ClassSpace

end Weft
