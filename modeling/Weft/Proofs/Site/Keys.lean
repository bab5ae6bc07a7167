import Mathlib.Data.List.Nodup
import Weft.Proofs.Site.Decoding
import Weft.Site.Any

/-!
# Keys of sites

The key of a site is made of the digest of the image and of the index of the member. So the sites of
one class have different keys, and where digests of images do not collide, sites with one key differ
at most in the decoding that they come from.
-/

namespace Weft

variable {options : DecodeOptions} {decoding decoding' : Nat} {image image' : Bytes}
  {s s' : ClassSite}

/-! ## Decodings -/

/-- The class as a site of another decoding. -/
def ClassSite.under (decoding : Nat) (s : ClassSite) : ClassSite := { s with decoding }

/-- The field as a site of another decoding. -/
def FieldSite.under (decoding : Nat) (f : FieldSite) : FieldSite :=
  { f with owner := f.owner.under decoding }

/-- The method as a site of another decoding. -/
def MethodSite.under (decoding : Nat) (m : MethodSite) : MethodSite :=
  { m with owner := m.owner.under decoding }

/-- The site as one of another decoding. -/
def Site.under (decoding : Nat) : Site → Site
  | ofClass s => ofClass (s.under decoding)
  | ofField f => ofField (f.under decoding)
  | ofMethod m => ofMethod (m.under decoding)

namespace Site

@[simp] theorem target_under (s : Site) : (s.under decoding).target = s.target := by
  cases s <;> rfl

@[simp] theorem key_under (s : Site) : (s.under decoding).key = s.key := by
  cases s <;> rfl

@[simp] theorem name_under (s : Site) : (s.under decoding).name = s.name := by
  cases s <;> rfl

/-- Each site comes from some decoding. -/
theorem exists_under (s : Site) : ∃ decoding, s.under decoding = s := by
  cases s with
  | ofClass s => exact ⟨s.decoding, rfl⟩
  | ofField f => exact ⟨f.owner.decoding, rfl⟩
  | ofMethod m => exact ⟨m.owner.decoding, rfl⟩

end Site

/-! ## The sites of a class -/

namespace ClassSite

/-- The class and its members. -/
def sites (s : ClassSite) : List Site :=
  .ofClass s :: (s.fields.map .ofField ++ s.methods.map .ofMethod)

theorem fields_under (s : ClassSite) :
    (s.under decoding).fields = s.fields.map (·.under decoding) := by
  unfold fields
  rw [List.map_map]
  rfl

theorem methodSite_under (s : ClassSite) (scope : List TypeParameter) (index : Nat) (m : Member)
    (name : String) (d : MethodDescriptor) :
    (s.under decoding).methodSite scope index m name d =
      (s.methodSite scope index m name d).under decoding := by
  have signature : m.signature (s.under decoding).pool = m.signature s.pool := rfl
  unfold methodSite
  rw [signature]
  dsimp only
  split
  · rfl
  · split <;> rfl
  · rfl

theorem methodSite_spec (s : ClassSite) (scope : List TypeParameter) (index : Nat) (m : Member)
    (name : String) (d : MethodDescriptor) :
    (s.methodSite scope index m name d).owner = s ∧
      (s.methodSite scope index m name d).index = UInt16.ofNat index ∧
      (s.methodSite scope index m name d).member = m ∧
      (s.methodSite scope index m name d).name = name ∧
      (s.methodSite scope index m name d).descriptor = d := by
  unfold methodSite
  dsimp only
  split
  · exact ⟨rfl, rfl, rfl, rfl, rfl⟩
  · split <;> exact ⟨rfl, rfl, rfl, rfl, rfl⟩
  · exact ⟨rfl, rfl, rfl, rfl, rfl⟩

theorem methods_under (s : ClassSite) :
    (s.under decoding).methods = s.methods.map (·.under decoding) := by
  unfold methods
  rw [List.map_map]
  exact List.map_congr_left fun _ _ => s.methodSite_under _ _ _ _ _

theorem sites_under (s : ClassSite) :
    (s.under decoding).sites = s.sites.map (·.under decoding) := by
  rw [sites, sites, fields_under, methods_under, List.map_cons, List.map_append, List.map_map,
    List.map_map, List.map_map, List.map_map]
  rfl

theorem mem_sites {site : Site} : site ∈ s.sites ↔ site = .ofClass s ∨
    (∃ f ∈ s.fields, site = .ofField f) ∨ ∃ m ∈ s.methods, site = .ofMethod m := by
  simp only [sites, List.mem_cons, List.mem_append, List.mem_map, eq_comm]

/-- Two decodings of one image give sites that differ in nothing else. -/
theorem eq_under_of_ofBytes (h : ofBytes options decoding image = .ok s)
    (h' : ofBytes options decoding' image = .ok s') : s' = s.under decoding' := by
  cases (ofBytes_again h decoding').symm.trans h'
  rfl

theorem artifact_of_ofBytes (h : ofBytes options decoding image = .ok s) :
    s.artifact = Digest.sha1 image := by
  obtain ⟨c, -, artifact, -⟩ := ofBytes_eq_ok h
  exact artifact

end ClassSite

/-! ## The methods of a site -/

namespace ClassSite

/-- The methods of a class and what its site tells about each. -/
structure Lists (s : ClassSite) (c : ClassFile) : Prop where
  classFile : s.classFile = c
  methods : List.Forall₂ (fun m t => c.pool.utf8 m.name = .ok t.1 ∧
    ∃ text, c.pool.utf8 m.descriptor = .ok text ∧ MethodDescriptor.ofText text = .ok t.2)
    c.methods s.methodTypes

theorem lists_of_ofBytes {decoding : Nat} {image : Bytes} {s : ClassSite}
    (h : ofBytes options decoding image = .ok s) :
    ∃ c, ClassFile.ofBytes options image = .ok c ∧ s.Lists c := by
  obtain ⟨c, decoded, -, -, tells⟩ := ofBytes_eq_ok h
  exact ⟨c, decoded, tells.classFile, forall₂_of_memberTypes tells.methodTypes⟩

theorem sound_of_ofBytes {decoding : Nat} {image : Bytes} {s : ClassSite}
    (h : ofBytes options decoding image = .ok s) : s.pool.Sound := by
  obtain ⟨c, decoded, lists⟩ := lists_of_ofBytes h
  rw [pool, lists.classFile]
  exact (ClassFile.decoded_of_ofBytes decoded).readable.pool

/-- A method of the site is made of a method of the class and what the site tells about it. -/
theorem exists_methodSite {s : ClassSite} {i : MethodSite} (mem : i ∈ s.methods) :
    ∃ n m name d, s.classFile.methods[n]? = some m ∧ s.methodTypes[n]? = some (name, d) ∧
      i = s.methodSite s.generics.typeParameters n m name d := by
  obtain ⟨⟨⟨m, name, d⟩, n⟩, listed, rfl⟩ := List.mem_map.1 mem
  have found := List.mem_zipIdx_iff_getElem?.1 listed
  rw [List.getElem?_zip_eq_some] at found
  exact ⟨n, m, name, d, found.1, found.2, rfl⟩

/-- A method of the site stands at its index. -/
theorem mem_methods {s : ClassSite} {i : MethodSite} (mem : i ∈ s.methods) :
    ∃ n, i.index = UInt16.ofNat n ∧ s.classFile.methods[n]? = some i.member ∧
      s.methodTypes[n]? = some (i.name, i.descriptor) := by
  obtain ⟨n, m, name, d, found, typed, rfl⟩ := exists_methodSite mem
  obtain ⟨-, index, member, named, described⟩ :=
    s.methodSite_spec s.generics.typeParameters n m name d
  exact ⟨n, index, by rw [member]; exact found, by rw [named, described]; exact typed⟩

/-- A method of the site is one of the class, at its index and with its name. -/
theorem Lists.inside {s : ClassSite} {c : ClassFile} (h : s.Lists c)
    (few : c.methods.length < 65536) {i : MethodSite} (mem : i ∈ s.methods) :
    ∃ m, c.methods[i.index.toNat]? = some m ∧ c.pool.utf8 m.name = .ok i.name := by
  obtain ⟨n, index, found, typed⟩ := mem_methods mem
  rw [h.classFile] at found
  have bound : n < c.methods.length := (List.getElem?_eq_some_iff.1 found).1
  rw [index, UInt16.toNat_ofNat_of_lt' (by simp only [UInt16.size]; omega)]
  obtain ⟨t, typed', named, -⟩ := forall₂_getElem? h.methods found
  cases typed.symm.trans typed'
  exact ⟨_, found, named⟩

end ClassSite

/-! ## Keys -/

theorem nodup_ofNat_range {n : Nat} (few : n ≤ 65536) :
    ((List.range' 0 n).map UInt16.ofNat).Nodup := by
  refine List.Nodup.map_on (fun a ha b hb same => ?_) List.nodup_range'
  rw [List.mem_range'_1] at ha hb
  have same := congrArg UInt16.toNat same
  rwa [UInt16.toNat_ofNat_of_lt' (by simp only [UInt16.size]; omega),
    UInt16.toNat_ofNat_of_lt' (by simp only [UInt16.size]; omega)] at same

/-- A class file that was read has no more members than can be counted. -/
theorem ClassFile.few_of_ofBytes {c : ClassFile} (h : ClassFile.ofBytes options image = .ok c) :
    c.fields.length < 65536 ∧ c.methods.length < 65536 := by
  obtain ⟨c, read, h⟩ := except_bind_eq_ok.1 (except_mapError_eq_ok h)
  obtain ⟨⟨⟩, named, h⟩ := except_bind_eq_ok.1 h
  cases h
  obtain ⟨s', read⟩ := Reader.parse_eq_ok read
  obtain ⟨-, -, s₁, s₂, s₃, s₄, s₅, s₆, s₇, s₈, s₉, s₁₀, -, -, -, -, -, -, -, -, fields, methods,
    -⟩ := read_eq_ok read
  exact ⟨(Reader.table_eq_ok fields).1, (Reader.table_eq_ok methods).1⟩

/-- The image whose site or member the key is of. -/
def SiteKey.artifact : SiteKey → ArtifactId
  | ofClass artifact | ofField artifact _ | ofMethod artifact _ => artifact

namespace ClassSite

theorem artifact_key {site : Site} (mem : site ∈ s.sites) : site.key.artifact = s.artifact := by
  rcases mem_sites.1 mem with rfl | ⟨f, listed, rfl⟩ | ⟨m, listed, rfl⟩
  · rfl
  · obtain ⟨x, -, rfl⟩ := List.mem_map.1 listed
    rfl
  · obtain ⟨x, -, rfl⟩ := List.mem_map.1 listed
    rw [Site.key, MethodSite.key, (s.methodSite_spec _ _ _ _ _).1]
    rfl

theorem fields_map_key (s : ClassSite) : s.fields.map (·.key) =
    ((List.range' 0 (s.classFile.fields.zip s.fieldTypes).length).map UInt16.ofNat).map
      (.ofField s.artifact) := by
  rw [← List.zipIdx_map_snd, fields, List.map_map, List.map_map, List.map_map]
  rfl

theorem methods_map_index (s : ClassSite) : s.methods.map (·.index) =
    (List.range' 0 (s.classFile.methods.zip s.methodTypes).length).map UInt16.ofNat := by
  rw [← List.zipIdx_map_snd, methods, List.map_map, List.map_map]
  exact List.map_congr_left fun _ _ => (s.methodSite_spec _ _ _ _ _).2.1

/-- The methods of the site have different indices. -/
theorem nodup_index (few : s.classFile.methods.length < 65536) :
    (s.methods.map (·.index)).Nodup := by
  rw [methods_map_index]
  refine nodup_ofNat_range ?_
  rw [List.length_zip]
  omega

theorem methods_map_key (s : ClassSite) :
    s.methods.map (·.key) = (s.methods.map (·.index)).map (.ofMethod s.artifact) := by
  rw [methods, List.map_map, List.map_map, List.map_map]
  refine List.map_congr_left fun x _ => ?_
  show SiteKey.ofMethod _ _ = SiteKey.ofMethod _ _
  rw [(s.methodSite_spec _ _ _ _ _).1]

/-- Keys tell the sites of a class apart. -/
theorem nodup_keys (h : ofBytes options decoding image = .ok s) :
    (s.sites.map (·.key)).Nodup := by
  obtain ⟨c, read, -, -, tells⟩ := ofBytes_eq_ok h
  have few : s.classFile.fields.length < 65536 ∧ s.classFile.methods.length < 65536 :=
    tells.classFile ▸ ClassFile.few_of_ofBytes read
  have keys : s.sites.map (·.key) =
      .ofClass s.artifact :: (s.fields.map (·.key) ++ s.methods.map (·.key)) := by
    rw [sites, List.map_cons, List.map_append, List.map_map, List.map_map]
    rfl
  rw [keys, fields_map_key, methods_map_key]
  refine List.nodup_cons.2 ⟨?_, List.nodup_append'.2 ⟨?_, ?_, ?_⟩⟩
  · simp
  · refine (nodup_ofNat_range ?_).map fun a b same => (SiteKey.ofField.inj same).2
    rw [List.length_zip]
    omega
  · exact (nodup_index few.2).map fun a b same => (SiteKey.ofMethod.inj same).2
  · intro key field method
    obtain ⟨n, -, rfl⟩ := List.mem_map.1 field
    obtain ⟨m, -, other⟩ := List.mem_map.1 method
    cases other

/-- Where the digests of two images do not collide, sites of one key differ in their decodings
only. -/
theorem eq_under_of_key (h : ofBytes options decoding image = .ok s)
    (h' : ofBytes options decoding' image' = .ok s')
    (apart : Digest.sha1 image = Digest.sha1 image' → image = image') {site site' : Site}
    (mem : site ∈ s.sites) (mem' : site' ∈ s'.sites) (same : site.key = site'.key) :
    site' = site.under decoding' := by
  have digests : s.artifact = s'.artifact := by
    rw [← artifact_key mem, same, artifact_key mem']
  rw [artifact_of_ofBytes h, artifact_of_ofBytes h'] at digests
  cases apart digests
  rw [eq_under_of_ofBytes h h', sites_under] at mem'
  obtain ⟨twin, listed, rfl⟩ := List.mem_map.1 mem'
  rw [Site.key_under] at same
  rw [List.inj_on_of_nodup_map (nodup_keys h) listed mem same.symm]

end ClassSite

end Weft
