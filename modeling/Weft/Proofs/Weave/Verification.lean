import Weft.Proofs.Weave.Conservation
import Weft.Proofs.Weave.Declarations
import Weft.Proofs.Weave.Helpers

/-!
# Woven images are images of classes

Each image that a plan makes is decoded as a site again: the members that the class had are
described as they were, and those that are added have descriptors of types that can be spelled.
-/

namespace Weft

variable {options : DecodeOptions} {p : Pool} {owner : ClassName}

/-! ## Names of classes -/

namespace Weave

variable {c c' : ClassFile} {plan : Plan}

/-! ## The woven class -/

theorem PlannedField.IsField.described {access : Access} {name descriptor : String} {m : Member}
    (h : IsField p access name descriptor m) (typed : IsFieldDescriptor descriptor) :
    m.Described IsFieldDescriptor p := by
  obtain ⟨named, text⟩ := Member.isNamed_iff.1 h.named
  exact ⟨⟨name, Pool.holds_of_utf8 named⟩, descriptor, Pool.holds_of_utf8 text, typed⟩

/-- The fields of a planned field are described, its holder among them. -/
theorem PlannedField.IsDeclared.described {f : PlannedField} {group : List Member}
    (h : f.IsDeclared p group) (spelled : f.type.Spelled) :
    ∀ m ∈ group, m.Described IsFieldDescriptor p := by
  obtain ⟨m, field, h⟩ := h
  have own := field.described spelled.isFieldDescriptor
  split at h
  · obtain ⟨rfl, -⟩ := h
    exact fun x mem => List.mem_singleton.1 mem ▸ own
  · obtain ⟨rfl, -⟩ := h
    exact fun x mem => List.mem_singleton.1 mem ▸ own
  · obtain ⟨rfl, -⟩ := h
    exact fun x mem => List.mem_singleton.1 mem ▸ own
  · obtain ⟨holder, rfl, -, held, -⟩ := h
    intro x mem
    rcases List.mem_cons.1 mem with rfl | mem
    · exact held.described spelled_string.isFieldDescriptor
    · exact List.mem_singleton.1 mem ▸ own

/-- The descriptor of a method that is intercepted was read of the class. -/
theorem Plan.Suits.spelled {s : ClassSite} (h : plan.Suits s) (lists : s.Lists c)
    {i : PlannedIntercept} (planned : i ∈ plan.intercepts) : i.site.descriptor.Spelled := by
  obtain ⟨n, -, found, typed⟩ :=
    ClassSite.mem_methods (h.sites.subset (List.mem_map_of_mem planned))
  rw [lists.classFile] at found
  obtain ⟨t, typed', -, text, -, parsed⟩ := forall₂_getElem? lists.methods found
  cases typed.symm.trans typed'
  exact MethodDescriptor.spelled_of_ofText parsed

/-- The methods of a woven class are described: those in place as they were, the others by what is
planned. -/
theorem Arranged.described {s : ClassSite} {methods base moved rest : List Member}
    (h : Arranged plan owner c p methods base moved rest) (suits : plan.Suits s)
    (lists : s.Lists c) (spelled : plan.Spelled) (grown : c.pool.Extends p)
    (before : ∀ m ∈ c.methods, m.Described IsMethodDescriptor c.pool) :
    ∀ m ∈ methods, m.Described IsMethodDescriptor p := by
  intro x mem
  rw [h.whole] at mem
  rcases List.mem_append.1 mem with mem | mem
  · obtain ⟨n, at_n⟩ := List.getElem?_of_mem mem
    have bound : n < c.methods.length := h.length ▸ (List.getElem?_eq_some_iff.1 at_n).1
    have found := List.getElem?_eq_getElem bound
    obtain ⟨m', at_n', name, descriptor, -⟩ := h.kept n _ found
    cases at_n.symm.trans at_n'
    have old := (before _ (List.mem_of_getElem? found)).mono grown
    exact ⟨name ▸ old.name, descriptor ▸ old.descriptor⟩
  rcases List.mem_append.1 mem with mem | mem
  · obtain ⟨i, planned, m, code, -, -, is_moved⟩ := forall₂_mem_right h.moved mem
    exact ⟨⟨_, is_moved.name⟩, _, is_moved.descriptor,
      (suits.spelled lists planned).isMethodDescriptor⟩
  · rcases h.rest x mem with initializer | ⟨m, planned, is_added⟩
    · exact ⟨⟨_, initializer.name⟩, _, initializer.descriptor,
        spelled_plainDescriptor.isMethodDescriptor⟩
    · exact ⟨⟨_, is_added.name⟩, _, is_added.descriptor,
        (spelled.methods m planned).isMethodDescriptor⟩

theorem Plan.described_of_weave {s : ClassSite} (h : plan.weave owner c = .ok () c')
    (suits : plan.Suits s) (lists : s.Lists c) (decoded : c.Decoded options)
    (spelled : plan.Spelled) (before : c.Described) (small : c'.pool.size < 65536) :
    c'.Described := by
  obtain ⟨keeps, ⟨groups, fields, declared⟩, methods, -⟩ := weave_eq_ok h suits lists decoded
  obtain ⟨base, moved, rest, arranged⟩ := methods small
  constructor
  case fields =>
    intro m mem
    rw [fields] at mem
    rcases List.mem_append.1 mem with mem | mem
    · exact (before.fields m mem).mono keeps.pool.keeps
    · obtain ⟨group, listed, mem⟩ := List.mem_flatten.1 mem
      obtain ⟨f, planned, is_declared⟩ := forall₂_mem_right (declared _ (.refl _) small) listed
      exact is_declared.described (spelled.fields f planned) m mem
  case methods =>
    exact arranged.described suits lists spelled keeps.pool.keeps before.methods

end Weave

end Weft
