import Weft.Proofs.Weave.Emission
import Weft.Weave.Wrapper

/-!
# What interception does to methods

Each intercepted method gets other code in its place and leaves its code to a method that is
appended; all other methods stay as they are. Since the intercepted methods are different ones, the
code that is moved is that of the class before any of them was wrapped.
-/

namespace Weft.Weave

variable {options : DecodeOptions} {p q : Pool} {owner : ClassName}

theorem straight_loadReceiver (isStatic : Bool) : (loadReceiver isStatic).Straight :=
  .ite Build.straight_pushNull Build.straight_loadThis

theorem straight_makeHelper (owner helper : ClassName) (isStatic : Bool) :
    (makeHelper owner helper isStatic).Straight := by
  unfold makeHelper
  refine (Build.straight_newObject helper).bind fun _ => Build.straight_dup.bind fun _ => ?_
  split
  · exact Build.straight_loadThis.bind fun _ => Build.straight_invokeSpecial _ _ _
  · exact Build.straight_invokeSpecial _ _ _

theorem writes_returnObject (t : JType) : Writes (returnObject t) := by
  unfold returnObject
  split
  · exact .after Build.straight_popObject fun _ => .returnValue t
  · exact .after (Build.straight_unbox t) fun _ => .returnValue t

namespace PlannedIntercept

theorem writes_wrapperCode (owner : ClassName) (i : PlannedIntercept) :
    Writes (i.wrapperCode owner) :=
  .after (Build.straight_pushString _) fun _ => .after (straight_loadReceiver _) fun _ =>
    .after (Build.straight_packArguments _ _) fun _ => .after (straight_makeHelper _ _ _) fun _ =>
      .after (Build.straight_invokeStatic _ _ _) fun _ => writes_returnObject _

/-- The method has the kept name of the intercepted method, and nothing but its code. -/
structure IsMoved (i : PlannedIntercept) (p : Pool) (code : Attribute) (moved : Member) : Prop where
  name : p.Holds moved.name (.utf8 i.keptAs)
  descriptor : p.Holds moved.descriptor (.utf8 i.site.descriptor.descriptor)
  attributes : moved.attributes = [code]

theorem IsMoved.mono {i : PlannedIntercept} {code : Attribute} {moved : Member}
    (h : i.IsMoved p code moved) (grown : p.Extends q) : i.IsMoved q code moved :=
  ⟨h.name.mono grown, h.descriptor.mono grown, h.attributes⟩

/-- The method with other code, and without its monitor. -/
def rewrapped (m : Member) (code : CodeAttribute) : Member :=
  { m with access := m.access \ .accSynchronized }.setCode code

theorem movedMethod_eq_ok {i : PlannedIntercept} {m moved : Member} {code : Attribute}
    (h : i.movedMethod m code p = .ok moved q) :
    p.GrowsTo q ∧ (p.Sound → i.IsMoved q code moved) := by
  obtain ⟨bare, p', named, h⟩ := step_bind_eq_ok.1 h
  obtain ⟨rfl, rfl⟩ := step_pure_eq_ok.1 h
  obtain ⟨grown, -, -, held⟩ := Member.named_eq_ok (edit_change_eq_ok.1 named)
  exact ⟨grown, fun sound => ⟨(held sound).1, (held sound).2, rfl⟩⟩

variable (options) in
theorem wrappedMethod_eq_ok {i : PlannedIntercept} {m wrapped : Member}
    (h : i.wrappedMethod owner m p = .ok wrapped q) :
    p.GrowsTo q ∧ ∃ c, wrapped = rewrapped m c ∧ (p.Sound → c.Readable options q) := by
  obtain ⟨body, p', built, h⟩ := step_bind_eq_ok.1 h
  obtain ⟨c, p'', coded, h⟩ := step_bind_eq_ok.1 h
  obtain ⟨rfl, rfl⟩ := step_pure_eq_ok.1 h
  obtain ⟨grown, some_code⟩ := build_eq_ok (i.writes_wrapperCode owner) built
  exact ⟨grown.trans (Body.toCode_eq_ok coded).1, c, rfl,
    fun sound => Body.readable_toCode options coded (grown.sound sound) some_code⟩

/-- The steps of intercepting one method. -/
theorem weave_steps {i : PlannedIntercept} {c c' : ClassFile} (h : i.weave owner c = .ok () c') :
    ∃ m code moved wrapped p₁ p₂, c.methods[i.site.index.toNat]? = some m ∧
      m.attributes.find? (·.body.code?.isSome) = some code ∧
        i.movedMethod m code c.pool = .ok moved p₁ ∧ i.wrappedMethod owner m p₁ = .ok wrapped p₂ ∧
          c' = { c with
            pool := p₂
            methods := c.methods.set i.site.index.toNat wrapped ++ [moved] } := by
  unfold weave at h
  rw [step_get_bind] at h
  cases found : c.methods[i.site.index.toNat]? with
  | none =>
    simp only [found] at h
    cases h
  | some m =>
    simp only [found] at h
    cases coded : m.attributes.find? (·.body.code?.isSome) with
    | none =>
      simp only [coded] at h
      cases h
    | some code =>
      simp only [coded] at h
      obtain ⟨moved, c₁, first, h⟩ := step_bind_eq_ok.1 h
      obtain ⟨p₁, movement, rfl⟩ := editPool_eq_ok first
      obtain ⟨wrapped, c₂, second, h⟩ := step_bind_eq_ok.1 h
      obtain ⟨p₂, wrapping, rfl⟩ := editPool_eq_ok second
      cases h
      exact ⟨m, code, moved, wrapped, p₁, p₂, rfl, coded, movement, wrapping, rfl⟩

theorem weave_of_steps {i : PlannedIntercept} {c : ClassFile} {m moved wrapped : Member}
    {code : Attribute} {p₁ p₂ : Pool} (found : c.methods[i.site.index.toNat]? = some m)
    (coded : m.attributes.find? (·.body.code?.isSome) = some code)
    (movement : i.movedMethod m code c.pool = .ok moved p₁)
    (wrapping : i.wrappedMethod owner m p₁ = .ok wrapped p₂) :
    i.weave owner c = .ok () { c with
      pool := p₂
      methods := c.methods.set i.site.index.toNat wrapped ++ [moved] } := by
  unfold weave
  rw [step_get_bind]
  simp only [found, coded]
  refine step_bind_eq_ok.2 ⟨moved, { c with pool := p₁ }, edit_zoom_eq_ok.2 ⟨p₁, movement, rfl⟩, ?_⟩
  exact step_bind_eq_ok.2
    ⟨wrapped, { c with pool := p₂ }, edit_zoom_eq_ok.2 ⟨p₂, wrapping, rfl⟩, rfl⟩

variable (options) in
/-- What intercepting one method does. -/
theorem weave_eq_ok {i : PlannedIntercept} {c c' : ClassFile} (h : i.weave owner c = .ok () c') :
    Keeps options c c' ∧ c'.fields = c.fields ∧ c'.attributes = c.attributes ∧
      ∃ m code wrapper moved, c.methods[i.site.index.toNat]? = some m ∧
        m.attributes.find? (·.body.code?.isSome) = some code ∧
          c'.methods = c.methods.set i.site.index.toNat (rewrapped m wrapper) ++ [moved] ∧
            (c.pool.Sound → i.IsMoved c'.pool code moved) := by
  obtain ⟨m, code, moved, wrapped, p₁, p₂, found, coded, movement, wrapping, rfl⟩ := weave_steps h
  obtain ⟨grown, is_moved⟩ := movedMethod_eq_ok movement
  obtain ⟨grown', wrapper, rfl, readable⟩ := wrappedMethod_eq_ok options wrapping
  refine ⟨.of_methods (grown.trans grown') fun h x mem => ?_, rfl, rfl, m, code, wrapper, moved,
    found, coded, rfl, fun sound => (is_moved sound).mono grown'.keeps⟩
  have sound := h.pool
  have old {x : Member} (mem : x ∈ c.methods) := (h.methods x mem).mono (grown.trans grown').keeps
  rcases List.mem_append.1 mem with mem | mem
  · rcases List.mem_or_eq_of_mem_set mem with mem | rfl
    · exact old mem
    · have before := old (List.mem_of_getElem? found)
      exact Member.readable_setCode ⟨before.name, before.descriptor, before.attributes⟩
        (readable (grown.sound sound))
  · rw [List.mem_singleton.1 mem]
    have held := (is_moved sound).mono grown'.keeps
    refine ⟨⟨_, held.name⟩, ⟨_, held.descriptor⟩, ?_⟩
    rw [held.attributes]
    intro a mem
    rw [List.mem_singleton.1 mem]
    exact (old (List.mem_of_getElem? found)).attributes code (List.mem_of_find?_eq_some coded)

/-- The methods before and behind an interception of several methods. -/
structure Intercepted (is : List PlannedIntercept) (p : Pool) (base base' moved : List Member) :
    Prop where
  length : base'.length = base.length
  others : ∀ n, (∀ i ∈ is, i.site.index.toNat ≠ n) → base'[n]? = base[n]?
  wrapped : ∀ i ∈ is, ∃ m wrapper, base[i.site.index.toNat]? = some m ∧
    base'[i.site.index.toNat]? = some (rewrapped m wrapper)
  moved : List.Forall₂ (fun i member => ∃ m code, base[i.site.index.toNat]? = some m ∧
    m.attributes.find? (·.body.code?.isSome) = some code ∧ i.IsMoved p code member) is moved

variable (options) in
/-- Interceptions of different methods do not meet: each moves the code that its method had at the
start. -/
theorem intercepts_eq_ok {is : List PlannedIntercept} {c c' : ClassFile} {base old : List Member}
    (h : is.forM (·.weave owner) c = .ok ⟨⟩ c') (methods : c.methods = base ++ old)
    (inside : ∀ i ∈ is, i.site.index.toNat < base.length)
    (distinct : (is.map (·.site.index)).Nodup) (sound : c.pool.Sound) :
    Keeps options c c' ∧ c'.fields = c.fields ∧ c'.attributes = c.attributes ∧
      ∃ base' moved, c'.methods = base' ++ (old ++ moved) ∧
        Intercepted is c'.pool base base' moved := by
  induction is generalizing c base old with
  | nil =>
    cases h
    exact ⟨.refl _, rfl, rfl, base, [], by simpa using methods, rfl, fun _ _ => rfl,
      (fun _ mem => nomatch mem), .nil⟩
  | cons i is ih =>
    obtain ⟨⟨⟩, c₁, first, h⟩ := step_bind_eq_ok.1 h
    obtain ⟨keeps, fields, attributes, m, code, wrapper, member, found, coded, changed, is_moved⟩ :=
      weave_eq_ok options first
    have in_base := inside i List.mem_cons_self
    have found' : base[i.site.index.toNat]? = some m := by
      rwa [methods, List.getElem?_append_left in_base] at found
    rw [methods, List.set_append_left _ _ in_base, List.append_assoc] at changed
    rw [List.map_cons, List.nodup_cons] at distinct
    have other : ∀ j ∈ is, i.site.index.toNat ≠ j.site.index.toNat := fun j mem same =>
      distinct.1 (UInt16.toNat_inj.1 same ▸ List.mem_map_of_mem mem)
    obtain ⟨keeps', fields', attributes', base', moved, methods', done⟩ := ih h changed
      (fun j mem => by simpa using inside j (List.mem_cons_of_mem i mem)) distinct.2
      (keeps.pool.sound sound)
    have before : ∀ j ∈ is, (base.set i.site.index.toNat (rewrapped m wrapper))[
        j.site.index.toNat]? = base[j.site.index.toNat]? := fun j mem =>
      List.getElem?_set_ne (other j mem)
    refine ⟨keeps.trans keeps', fields'.trans fields, attributes'.trans attributes, base',
      member :: moved, by rw [methods', List.append_assoc, List.singleton_append], ?_⟩
    refine ⟨by simpa using done.length, fun n apart => ?_, fun j mem => ?_, .cons ?_ ?_⟩
    · rw [done.others n fun j mem => apart j (List.mem_cons_of_mem i mem)]
      exact List.getElem?_set_ne (apart i List.mem_cons_self)
    · rcases List.mem_cons.1 mem with rfl | mem
      · refine ⟨m, wrapper, found', ?_⟩
        rw [done.others _ fun k mem => (other k mem).symm]
        exact List.getElem?_set_self in_base
      · obtain ⟨x, w, at_j, wrapped⟩ := done.wrapped j mem
        exact ⟨x, w, (before j mem).symm.trans at_j, wrapped⟩
    · exact ⟨m, code, found', coded, (is_moved sound).mono keeps'.pool.keeps⟩
    · have pairs := (List.forall₂_and_left _ _).2 ⟨before, done.moved⟩
      refine pairs.imp fun j x ⟨same, y, d, at_j, rest⟩ => ⟨y, d, same.symm.trans at_j, rest⟩

variable (options) in
/-- Whichever methods are intercepted, readable classes stay readable, and fields and attributes
stay. -/
theorem keeps_intercepts {is : List PlannedIntercept} {c c' : ClassFile}
    (h : is.forM (·.weave owner) c = .ok ⟨⟩ c') :
    Keeps options c c' ∧ c'.fields = c.fields ∧ c'.attributes = c.attributes := by
  induction is generalizing c with
  | nil =>
    cases h
    exact ⟨.refl _, rfl, rfl⟩
  | cons i is ih =>
    obtain ⟨⟨⟩, c₁, first, rest⟩ := step_bind_eq_ok.1 h
    obtain ⟨keeps, fields, attributes, -⟩ := weave_eq_ok options first
    obtain ⟨keeps', fields', attributes'⟩ := ih rest
    exact ⟨keeps.trans keeps', fields'.trans fields, attributes'.trans attributes⟩

end PlannedIntercept

end Weft.Weave
