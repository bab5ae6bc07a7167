import Weft.Proofs.ClassFile.Images
import Weft.Proofs.Signature.Descriptors
import Weft.Site.Basic

/-!
# Class files as sites

A class file becomes a site if its names resolve and the descriptors of its members are read. The
image of a readable class file whose members are described so is the image of a site.
-/

namespace Weft

variable {options : DecodeOptions} {p q : Pool}

/-- The text is the descriptor of a field. -/
def IsFieldDescriptor (text : String) : Prop := ∃ t, JType.ofDescriptor text = .ok t

/-- The text is the descriptor of a method. -/
def IsMethodDescriptor (text : String) : Prop := ∃ d, MethodDescriptor.ofText text = .ok d

theorem JType.Spelled.isFieldDescriptor {t : JType} (h : t.Spelled) :
    IsFieldDescriptor t.descriptor := ⟨t, ofDescriptor_descriptor h⟩

theorem MethodDescriptor.Spelled.isMethodDescriptor {d : MethodDescriptor} (h : d.Spelled) :
    IsMethodDescriptor d.descriptor := ⟨d, ofText_descriptor h⟩

/-- The member has a name, and a descriptor of a kind. -/
structure Member.Described (kind : String → Prop) (p : Pool) (m : Member) : Prop where
  name : ∃ name, p.Holds m.name (.utf8 name)
  descriptor : ∃ text, p.Holds m.descriptor (.utf8 text) ∧ kind text

theorem Member.Described.mono {kind : String → Prop} {m : Member} (h : m.Described kind p)
    (grown : p.Extends q) : m.Described kind q where
  name := h.name.imp fun _ named => named.mono grown
  descriptor := h.descriptor.imp fun _ ⟨typed, read⟩ => ⟨typed.mono grown, read⟩

/-- The members of the class have descriptors of their kinds. -/
structure ClassFile.Described (c : ClassFile) : Prop where
  fields : ∀ m ∈ c.fields, m.Described IsFieldDescriptor c.pool
  methods : ∀ m ∈ c.methods, m.Described IsMethodDescriptor c.pool

/-- Names of classes have no dots, which are read as slashes. -/
theorem Pool.dotless_of_className {index : UInt16} {name : ClassName}
    (h : p.className index = .ok name) : '.' ∉ name.internal.toList := by
  obtain ⟨c, -, h⟩ := except_bind_eq_ok.1 h
  split at h
  · obtain ⟨text, -, h⟩ := except_bind_eq_ok.1 h
    cases h
    exact ClassName.ofText_dotless text
  · cases h

namespace ClassSite

variable {α : Type} {parse : String → Except Error α} {members : List Member}

/-- The names and the types of members, as the pool tells them. -/
theorem forall₂_of_memberTypes {types : List (String × α)}
    (h : memberTypes p parse members = .ok types) :
    List.Forall₂ (fun m t => p.utf8 m.name = .ok t.1 ∧
      ∃ text, p.utf8 m.descriptor = .ok text ∧ parse text = .ok t.2) members types := by
  refine (except_mapM_eq_ok.1 h).imp fun m t read => ?_
  obtain ⟨name, named, read⟩ := except_bind_eq_ok.1 read
  obtain ⟨text, typed, read⟩ := except_bind_eq_ok.1 read
  obtain ⟨a, parsed, read⟩ := except_bind_eq_ok.1 read
  cases read
  exact ⟨named, text, typed, parsed⟩

theorem described_of_memberTypes {types : List (String × α)}
    (h : memberTypes p parse members = .ok types) :
    ∀ m ∈ members, m.Described (fun text => ∃ a, parse text = .ok a) p := by
  intro m mem
  obtain ⟨t, -, named, text, typed, parsed⟩ := forall₂_mem_left (forall₂_of_memberTypes h) mem
  exact ⟨⟨t.1, Pool.holds_of_utf8 named⟩, text, Pool.holds_of_utf8 typed, t.2, parsed⟩

theorem exists_memberTypes (small : p.size ≤ 65536)
    (described : ∀ m ∈ members, m.Described (fun text => ∃ a, parse text = .ok a) p) :
    ∃ types, memberTypes p parse members = .ok types := by
  have each : ∀ m ∈ members, ∃ t : String × α, (do
      let name ← p.utf8 m.name
      return (name, ← parse (← p.utf8 m.descriptor))) = .ok t := by
    intro m mem
    obtain ⟨⟨name, named⟩, text, typed, a, parsed⟩ := described m mem
    exact ⟨(name, a), except_bind_eq_ok.2 ⟨name, named.utf8 small,
      except_bind_eq_ok.2 ⟨text, typed.utf8 small, except_bind_eq_ok.2 ⟨a, parsed, rfl⟩⟩⟩⟩
  obtain ⟨types, read⟩ := exists_forall₂ each
  exact ⟨types, except_mapM_eq_ok.2 read⟩

/-- The site tells the names and the types that are in its class file. -/
structure Tells (s : ClassSite) (c : ClassFile) : Prop where
  classFile : s.classFile = c
  name : c.name = .ok s.name
  superName : c.superName = .ok s.superName
  interfaceNames : c.interfaceNames = .ok s.interfaceNames
  fieldTypes : memberTypes c.pool JType.ofDescriptor c.fields = .ok s.fieldTypes
  methodTypes : memberTypes c.pool MethodDescriptor.ofText c.methods = .ok s.methodTypes

theorem ofClass_eq_ok {artifact : ArtifactId} {decoding : Nat} {c : ClassFile} {s : ClassSite} :
    ofClass artifact decoding c = .ok s ↔
      s.artifact = artifact ∧ s.decoding = decoding ∧ s.Tells c := by
  unfold ofClass
  dsimp only
  constructor
  case mp =>
    intro h
    have h := except_mapError_eq_ok h
    obtain ⟨name, named, h⟩ := except_bind_eq_ok.1 h
    obtain ⟨superName, above, h⟩ := except_bind_eq_ok.1 h
    obtain ⟨interfaceNames, listed, h⟩ := except_bind_eq_ok.1 h
    obtain ⟨fieldTypes, fields, h⟩ := except_bind_eq_ok.1 h
    obtain ⟨methodTypes, methods, h⟩ := except_bind_eq_ok.1 h
    cases h
    exact ⟨rfl, rfl, rfl, named, above, listed, fields, methods⟩
  case mpr =>
    rintro ⟨rfl, rfl, rfl, named, above, listed, fields, methods⟩
    rw [named, above, listed, fields, methods]
    rfl

variable {decoding : Nat} {image : Bytes} {s : ClassSite}

theorem ofBytes_eq_ok (h : ofBytes options decoding image = .ok s) :
    ∃ c, ClassFile.ofBytes options image = .ok c ∧ s.artifact = Digest.sha1 image ∧
      s.decoding = decoding ∧ s.Tells c := by
  obtain ⟨c, read, h⟩ := except_bind_eq_ok.1 h
  exact ⟨c, read, ofClass_eq_ok.1 h⟩

theorem name_of_ofBytes (h : ofBytes options decoding image = .ok s) :
    s.classFile.name = .ok s.name := by
  obtain ⟨c, -, -, -, tells⟩ := ofBytes_eq_ok h
  exact tells.classFile ▸ tells.name

/-- The class file of a site is described. -/
theorem described_of_ofBytes (h : ofBytes options decoding image = .ok s) :
    s.classFile.Described := by
  obtain ⟨c, -, -, -, tells⟩ := ofBytes_eq_ok h
  rw [tells.classFile]
  exact ⟨described_of_memberTypes tells.fieldTypes, described_of_memberTypes tells.methodTypes⟩

/-- What an image is decoded as does not depend on which decoding it is. -/
theorem ofBytes_again (h : ofBytes options decoding image = .ok s) (again : Nat) :
    ofBytes options again image = .ok { s with decoding := again } := by
  obtain ⟨c, read, same, -, tells⟩ := ofBytes_eq_ok h
  exact except_bind_eq_ok.2 ⟨c, read, ofClass_eq_ok.2 ⟨same, rfl, tells.classFile, tells.name,
    tells.superName, tells.interfaceNames, tells.fieldTypes, tells.methodTypes⟩⟩

theorem exists_ofClass {c : ClassFile} (named : c.checkNames = .ok ()) (small : c.pool.size ≤ 65536)
    (described : c.Described) (artifact : ArtifactId) (decoding : Nat) :
    ∃ s, ofClass artifact decoding c = .ok s := by
  obtain ⟨name, known, named⟩ := except_bind_eq_ok.1 named
  obtain ⟨above, resolved, named⟩ := except_bind_eq_ok.1 named
  obtain ⟨interfaces, listed, -⟩ := except_bind_eq_ok.1 named
  obtain ⟨fieldTypes, fields⟩ := exists_memberTypes small described.fields
  obtain ⟨methodTypes, methods⟩ := exists_memberTypes small described.methods
  exact ⟨⟨artifact, decoding, c, name, above, interfaces, fieldTypes, methodTypes⟩,
    ofClass_eq_ok.2 ⟨rfl, rfl, rfl, known, resolved, listed, fields, methods⟩⟩

/-- What is written of a readable class file whose members are described is the image of a site. -/
theorem exists_ofBytes {c : ClassFile} (readable : c.Readable options)
    (described : c.pool.size < 65536 → c.Described) (written : c.toBytes = .ok image)
    (decoding : Nat) : ∃ s, ofBytes options decoding image = .ok s := by
  obtain ⟨small, r, same, read⟩ := ClassFile.ofBytes_toBytes readable written
  have grown := Pool.Extends.of_entries same
  have described := described small
  have named : ({ c with pool := r } : ClassFile).checkNames = .ok () :=
    ClassFile.checkNames_mono readable.named grown rfl rfl rfl
  have again : ({ c with pool := r } : ClassFile).Described :=
    ⟨fun m mem => (described.fields m mem).mono grown,
      fun m mem => (described.methods m mem).mono grown⟩
  have small' : r.size ≤ 65536 := by
    rw [Pool.size, same]
    exact Nat.le_of_lt small
  obtain ⟨s, site⟩ := exists_ofClass named small' again (Digest.sha1 image) decoding
  exact ⟨s, except_bind_eq_ok.2 ⟨_, read, site⟩⟩

end ClassSite

end Weft
