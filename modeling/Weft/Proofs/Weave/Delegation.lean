import Weft.Proofs.Weave.Initialization
import Weft.Proofs.Weave.Marshalling

/-!
# Intercepted calls are delegated

The wrapper that interception writes hands each call to the bridge, exactly once: with the token of
the callbacks, the receiver, the packed arguments and a helper that its constructor has made. The
helper, called with any array of packed arguments, calls the kept body with what they stand for. The
code is run as it is read back, for every descriptor that is read and for which code is written.
-/

namespace Weft

open Machine

variable {p q r : Pool}

/-! ## Methods that are emitted -/

/-- The body of a method, as it is read with a pool. -/
def Member.body? (m : Member) (p : Pool) : Option Body :=
  m.code?.bind fun c => (Body.ofCode c p).toOption

/-- The body of the first method of that name and descriptor, as it is read. -/
def ClassFile.body? (c : ClassFile) (name descriptor : String) : Option Body :=
  (c.methods.find? (·.isNamed c.pool name descriptor)).bind (·.body? c.pool)

/-- The method is one that was emitted under the name, with code that was built of `code`. -/
structure Member.IsEmitted (name : String) (d : MethodDescriptor) (isStatic : Bool)
    (code : Build Unit) (p : Pool) (m : Member) : Prop where
  name : p.Holds m.name (.utf8 name)
  descriptor : p.Holds m.descriptor (.utf8 d.descriptor)
  built : ∃ c, m.code? = some c ∧ c.IsBuilt (Weave.entrySlots d isStatic) code p

namespace Member.IsEmitted

variable {name : String} {d : MethodDescriptor} {isStatic : Bool} {code : Build Unit} {m : Member}

theorem mono (h : IsEmitted name d isStatic code p m) (grown : p.Extends q) :
    IsEmitted name d isStatic code q m := by
  obtain ⟨c, coded, built⟩ := h.built
  exact ⟨h.name.mono grown, h.descriptor.mono grown, c, coded, built.mono grown⟩

theorem isNamed (h : IsEmitted name d isStatic code p m) (small : p.size < 65536) :
    m.isNamed p name d.descriptor = true :=
  Member.isNamed_iff.2 ⟨h.name.utf8 small.le, h.descriptor.utf8 small.le⟩

theorem not_isNamed (h : IsEmitted name d isStatic code p m) (small : p.size < 65536)
    {other : String} (apart : name ≠ other) (descriptor : String) :
    m.isNamed p other descriptor = false := by
  rw [← Bool.not_eq_true, Member.isNamed_iff, h.name.utf8 small.le]
  rintro ⟨same, -⟩
  exact apart (Except.ok.inj same)

/-- What an emitted method does when it is read back. -/
theorem runs {σ : Type} (env : Env σ) {as : List Act} (h : IsEmitted name d isStatic code p m)
    (performs : Build.Performs env code as) (small : p.size < 65536)
    (low : ∀ n ∈ heights 0 as, n < 65536) :
    ∃ b, m.body? p = some b ∧ ∀ (enter : Enter σ) words s e s',
      (layOut words).length ≤ (Weave.entrySlots d isStatic).toNat →
        Ends env enter as ⟨[], layOut words, s⟩ e s' → runBody env enter p b words s = (e, s') := by
  obtain ⟨c, coded, built⟩ := h.built
  obtain ⟨b, read, runs⟩ := built.runs performs small low
  refine ⟨b, ?_, runs⟩
  rw [Member.body?, coded, Option.bind_some, read]
  rfl

end Member.IsEmitted

theorem Member.code?_setCode {m : Member} {a : Attribute} (c : CodeAttribute)
    (coded : m.attributes.find? (·.body.code?.isSome) = some a) : (m.setCode c).code? = some c := by
  unfold Member.code? Member.setCode
  dsimp only
  generalize m.attributes = attributes at coded ⊢
  induction attributes with
  | nil => cases coded
  | cons b rest ih =>
    rw [updateFirst]
    split
    · rfl
    · rename_i bare
      rw [List.find?_cons, Bool.eq_false_of_not_eq_true bare] at coded
      rw [List.findSome?_cons, Option.not_isSome_iff_eq_none.1 bare]
      exact ih coded

namespace Weave

variable {c c' : ClassFile} {owner : ClassName}

theorem builtMethod_isEmitted {access : Access} {name : String} {d : MethodDescriptor}
    {code : Build Unit} (writes : Writes code) {m : Member}
    (h : builtMethod access name d code p = .ok m q) (sound : p.Sound) :
    m.IsEmitted name d access.isStatic code q := by
  have emitted := builtMethod_eq_ok {} writes h
  obtain ⟨bare, p₁, body, p₂, c, p₃, a, named, built, coded, labelled, later, rfl⟩ :=
    steps_of_builtMethod h
  have grown := (Member.named_eq_ok named).1
  refine ⟨emitted.named sound, emitted.typed sound, c, ?_, body, p₁, p₂, p₃, grown.sound sound,
    built, coded, later.keeps⟩
  cases labelled
  rfl

theorem pushMethod_isEmitted {access : Access} {name : String} {d : MethodDescriptor}
    {code : Build Unit} (writes : Writes code)
    (h : pushMethod (builtMethod access name d code) c = .ok () c') (sound : c.pool.Sound) :
    c.pool.GrowsTo c'.pool ∧ ∃ m, c'.methods = c.methods ++ [m] ∧
      m.IsEmitted name d access.isStatic code c'.pool := by
  obtain ⟨m, q, built, rfl⟩ := pushMethod_steps h
  exact ⟨(builtMethod_eq_ok {} writes built).grown, m, rfl, builtMethod_isEmitted writes built sound⟩

theorem named_adds (access : Access) (name descriptor : String) :
    AddsAtMost 2 (Member.named access name descriptor) :=
  .bind (m := 1) (Pool.addUtf8_adds name) fun _ =>
    .bind (m := 0) (Pool.addUtf8_adds descriptor) fun _ => fun _ => Nat.le_refl _

/-- The constants of a method that is emitted are few. -/
theorem size_builtMethod {σ : Type} {env : Env σ} {access : Access} {name : String}
    {d : MethodDescriptor} {code : Build Unit} {as : List Act} {m : Member}
    (performs : Build.Performs env code as) (sound : p.Sound)
    (h : builtMethod access name d code p = .ok m q) : q.size ≤ p.size + 3 + 6 * as.length := by
  obtain ⟨bare, p₁, body, p₂, c, p₃, a, named, built, coded, labelled, -, rfl⟩ :=
    steps_of_builtMethod h
  have first := named_adds access name d.descriptor p
  rw [named] at first
  obtain ⟨second, same, -⟩ := Body.toCode_of_build performs
    ((Member.named_eq_ok named).1.sound sound) built
  obtain rfl := same c p₃ coded
  have last := Pool.addUtf8_adds "Code" p₃
  have last : q.size ≤ p₃.size + 1 := by
    cases labelled
    exact last
  dsimp only at first
  omega

/-- The wrapper that interception leaves in place of the method. -/
theorem PlannedIntercept.weave_wraps {i : PlannedIntercept} (h : i.weave owner c = .ok () c')
    (sound : c.pool.Sound) :
    ∃ m wrapper, c'.methods[i.site.index.toNat]? = some m ∧ m.code? = some wrapper ∧
      wrapper.IsBuilt (entrySlots i.site.descriptor i.site.isStatic) (i.wrapperCode owner)
        c'.pool := by
  obtain ⟨m, code, moved, wrapped, p₁, p₂, found, coded, movement, wrapping, rfl⟩ := weave_steps h
  have inside := (List.getElem?_eq_some_iff.1 found).1
  have grown := (movedMethod_eq_ok movement).1
  obtain ⟨body, p', built, wrapping⟩ := step_bind_eq_ok.1 wrapping
  obtain ⟨wrapper, p'', written, wrapping⟩ := step_bind_eq_ok.1 wrapping
  obtain ⟨rfl, rfl⟩ := step_pure_eq_ok.1 wrapping
  refine ⟨rewrapped m wrapper, wrapper, ?_, Member.code?_setCode wrapper coded, body, p₁, p', _,
    grown.sound sound, built, written, .refl _⟩
  rw [List.getElem?_append_left (by simpa using inside)]
  exact List.getElem?_set_self inside

namespace Helper

theorem AddsTarget.few (h : AddsTarget owner c c') :
    c.pool.GrowsTo c'.pool ∧ c'.pool.size ≤ c.pool.size + 2 ∧ c'.methods = c.methods := by
  rcases h with rfl | ⟨m, q, made, rfl⟩
  · exact ⟨.refl _, Nat.le_add_right _ _, rfl⟩
  · have few := named_adds (.accPrivate ∪ .accFinal ∪ .accSynthetic) targetField
      (JType.reference owner).descriptor c.pool
    rw [made] at few
    exact ⟨(Member.named_eq_ok made).1, few, rfl⟩

theorem size_joinNest (host : ClassName) (c : ClassFile) :
    (joinNest host c).pool.size ≤ c.pool.size + 3 := by
  have few := Pool.addClass_adds host.internal c.pool
  unfold joinNest ClassFile.onPool
  generalize Pool.addClass host.internal c.pool = added at few ⊢
  obtain ⟨index, p⟩ := added
  have attached := Pool.addUtf8_adds "NestHost" p
  exact Nat.le_trans attached (Nat.add_le_add_right few 1)

/-- The steps of making a helper that calls a method. -/
theorem classFile_steps {h : Helper} {method : String} {d : MethodDescriptor} {isStatic : Bool}
    (kind : h.kind = .call method d isStatic) {majorVersion : UInt16} {nested : Bool}
    (made : h.classFile owner majorVersion nested = .ok c) :
    ∃ c₁ c₂ c₃, c₁.pool.Sound ∧ c₁.methods = [] ∧ c₁.pool.size ≤ 9 ∧
      pushMethod (builtMethod ⟨0⟩ "<init>" (helperDescriptor owner isStatic)
        (h.constructorCode owner)) c₁ = .ok () c₂ ∧
      pushMethod (builtMethod .accPublic "invoke" invokeDescriptor (h.invokeCode owner method d))
        c₂ = .ok () c₃ ∧
      c.methods = c₃.methods ∧ c₃.pool.Extends c.pool ∧ c.pool.size ≤ c₃.pool.size + 3 := by
  obtain ⟨bare, full, start, pushed, rfl⟩ := classFile_eq_ok {} made
  obtain ⟨c₁, c₂, target, first, pushed⟩ := pushMembers_steps pushed
  obtain ⟨grown, few, same⟩ := target.few
  have size := start.few
  rw [kind] at pushed first
  refine ⟨c₁, c₂, full, grown.sound start.pool, same.trans start.methods, by omega, first, pushed, ?_⟩
  split
  · exact ⟨rfl, (joinNest_enlarges {} owner full).keeps.pool.keeps, size_joinNest owner full⟩
  · exact ⟨rfl, .refl _, Nat.le_add_right _ _⟩

/-- The methods of a helper that calls a method. -/
theorem methods_of_classFile {h : Helper} {method : String} {d : MethodDescriptor}
    {isStatic : Bool} (kind : h.kind = .call method d isStatic) {majorVersion : UInt16}
    {nested : Bool} (made : h.classFile owner majorVersion nested = .ok c) :
    ∃ init invoke, c.methods = [init, invoke] ∧
      init.IsEmitted "<init>" (helperDescriptor owner isStatic) false (h.constructorCode owner)
        c.pool ∧
        invoke.IsEmitted "invoke" invokeDescriptor false (h.invokeCode owner method d) c.pool := by
  obtain ⟨c₁, c₂, c₃, sound, none, -, first, second, same, grown, -⟩ := classFile_steps kind made
  obtain ⟨grown₁, init, methods₁, emitted₁⟩ :=
    pushMethod_isEmitted h.writes_constructorCode first sound
  obtain ⟨grown₂, invoke, methods₂, emitted₂⟩ :=
    pushMethod_isEmitted (h.writes_invokeCode method d) second (grown₁.sound sound)
  rw [methods₁, none] at methods₂
  exact ⟨init, invoke, same.trans methods₂, emitted₁.mono (grown₂.keeps.trans grown),
    emitted₂.mono grown⟩

/-- The constants of a helper that calls a method are few. -/
theorem size_of_classFile {σ : Type} (env : Env σ) {h : Helper} {method : String}
    {d : MethodDescriptor} {isStatic : Bool} {as bs : List Act}
    (kind : h.kind = .call method d isStatic)
    (constructs : Build.Performs env (h.constructorCode owner) as)
    (calls : Build.Performs env (h.invokeCode owner method d) bs) {majorVersion : UInt16}
    {nested : Bool} (made : h.classFile owner majorVersion nested = .ok c) :
    c.pool.size ≤ 18 + 6 * (as.length + bs.length) := by
  obtain ⟨c₁, c₂, c₃, sound, -, size, first, second, -, -, last⟩ := classFile_steps kind made
  have grown := (pushMethod_isEmitted h.writes_constructorCode first sound).1
  obtain ⟨m, q, built, rfl⟩ := pushMethod_steps first
  obtain ⟨m', r, built', rfl⟩ := pushMethod_steps second
  have one := size_builtMethod constructs sound built
  have two := size_builtMethod calls (grown.sound sound) built'
  dsimp only at last two
  omega

end Helper

/-! ## Calls -/

section Calls

variable {σ : Type}

/-- The environment runs the constructor of the class as it is read back. -/
def LoadsConstructor (env : Env σ) (name : ClassName) (d : MethodDescriptor) (k : ClassFile) :
    Prop :=
  env.constructors name.internal d.descriptor =
    (k.body? "<init>" d.descriptor).map (⟨d.params, ·, k.pool⟩)

namespace PlannedIntercept

/-- Each run of the wrapper on values of the parameters is one call of the bridge, on the packed
arguments and a new helper, and ends on what the bridge answers; it does not get stuck. -/
def Wraps (env : Env σ) (owner : ClassName) (i : PlannedIntercept)
    (run : List Word → Shared σ → Exit × Shared σ) : Prop :=
  ∀ receiver args s, List.Forall₂ JType.Holds i.site.descriptor.params args →
    ∃ boxes answer s', boxAll? i.site.descriptor.params args = some boxes ∧
      env.invoke interceptMethod (i.bridgeArguments receiver s.heap)
        { s with heap := i.packedHeap owner receiver boxes s.heap } =
          (answer.map (some ∘ .ref), s') ∧
      s'.calls = s.calls ++ [⟨interceptMethod, i.bridgeArguments receiver s.heap,
        i.packedHeap owner receiver boxes s.heap⟩] ∧
      run (thisWords i.site.isStatic receiver ++ args) s =
        (unboxedExit env s'.heap i.site.descriptor.ret answer, s') ∧
      unboxedExit env s'.heap i.site.descriptor.ret answer ≠ .stuck

/-- Each run of the helper on an array is one call of the kept body, on the receiver and on what
the array is unpacked to, and ends on what the body answers; it does not get stuck. If an object of
the array is no value of its type, nothing is called. -/
def Relays (env : Env σ) (owner : ClassName) (i : PlannedIntercept)
    (run : List Word → Shared σ → Exit × Shared σ) : Prop :=
  ∀ receiver h a element items s, (i.site.isStatic = false → receiver ≠ .null) →
    s.heap[h]? = some (i.helperCell owner receiver) →
    s.heap[a]? = some (.array element items) →
      (∀ e, env.unboxAll s.heap i.site.descriptor.params items = .error e →
        run [.ref (.object h), .ref (.object a)] s = (.thrown e, s)) ∧
      ∀ ws, env.unboxAll s.heap i.site.descriptor.params items = .ok ws →
        ∃ answer s' exit,
          env.invoke (i.keptMethod owner) (thisWords i.site.isStatic receiver ++ ws) s =
            (answer, s') ∧
          s'.calls = s.calls ++
            [⟨i.keptMethod owner, thisWords i.site.isStatic receiver ++ ws, s.heap⟩] ∧
          EndsBoxed i.site.descriptor.ret answer exit ∧ exit ≠ .stuck ∧
          run [.ref (.object h), .ref (.object a)] s = (exit, s')

variable {env : Env σ} {i : PlannedIntercept} {k : ClassFile}

theorem calls_of_invoke {m : Method} {args : List Word} {s s' : Shared σ}
    {answer : Except Ref (Option Word)} (h : env.invoke m args s = (answer, s')) :
    s'.calls = s.calls ++ [⟨m, args, s.heap⟩] := by
  cases h
  rfl

/-- The bridge answers a reference unless it raises an exception. -/
theorem exists_answer {args : List Word} {s s' : Shared σ} {answer : Except Ref (Option Word)}
    (h : env.invoke interceptMethod args s = (answer, s')) :
    ∃ a : Except Ref Ref, answer = a.map (some ∘ .ref) := by
  cases answer with
  | error e => exact ⟨.error e, rfl⟩
  | ok w =>
    have answers := env.invoke_answers h
    cases w with
    | none => cases answers
    | some w =>
      obtain ⟨r, rfl⟩ := answers
      exact ⟨.ok r, rfl⟩

theorem toNat_entrySlots {d : MethodDescriptor} (isStatic : Bool) (few : slotsOf d.params < 65535) :
    (entrySlots d isStatic).toNat = slotsOf d.params + if isStatic then 0 else 1 := by
  have counted := MethodDescriptor.toNat_paramSlots (d := d) (by omega)
  rw [entrySlots, UInt16.toNat_add, counted]
  cases isStatic
  · exact Nat.mod_eq_of_lt (show slotsOf d.params + 1 < 65536 by omega)
  · exact Nat.mod_eq_of_lt (show slotsOf d.params + 0 < 65536 by omega)

theorem fits_arguments {receiver : Ref} {args : List Word}
    (few : slotsOf i.site.descriptor.params < 65535)
    (held : List.Forall₂ JType.Holds i.site.descriptor.params args) :
    (layOut (thisWords i.site.isStatic receiver ++ args)).length ≤
      (entrySlots i.site.descriptor i.site.isStatic).toNat := by
  rw [length_layOut, depth_append, depth_of_holds held, toNat_entrySlots _ few, Nat.add_comm]
  unfold thisWords
  cases i.site.isStatic <;> exact Nat.le_refl _

variable (env) in
/-- The constructor that is read back makes a helper of a new object. -/
theorem constructor_runs {init : Member} (emitted : init.IsEmitted "<init>"
    (helperDescriptor owner i.site.isStatic) false (i.helper.constructorCode owner) k.pool)
    (small : k.pool.size < 65536) :
    ∃ b, init.body? k.pool = some b ∧ ∀ (enter : Enter σ) receiver (s : Shared σ) heap,
      runBody env enter k.pool b (.ref (.object heap.length) :: thisWords i.site.isStatic receiver)
        { s with heap := heap ++ [.object i.thunk.internal []] } =
          (.returned none, { s with heap := heap ++ [i.helperCell owner receiver] }) := by
  obtain ⟨b, read, runs⟩ := emitted.runs env performs_constructorCode small
    (constructorActions_spans.low (by decide))
  refine ⟨b, read, fun enter receiver s heap => ?_⟩
  have fits : (layOut (.ref (.object heap.length) :: thisWords i.site.isStatic receiver)).length ≤
      (entrySlots (helperDescriptor owner i.site.isStatic) false).toNat := by
    cases i.site.isStatic <;> exact Nat.le_refl _
  have ends : Ends env enter (constructorActions owner i)
      ⟨[], layOut (.ref (.object heap.length) :: thisWords i.site.isStatic receiver),
        { s with heap := heap ++ [.object i.thunk.internal []] }⟩ (.returned none) _ :=
    constructorActions_ends List.getElem?_concat_length
  rw [runs enter _ _ _ _ fits ends]
  simp [Shared.set]

theorem body?_init {init invoke : Member} {d : MethodDescriptor} {isStatic : Bool}
    {code : Build Unit} (methods : k.methods = [init, invoke])
    (emitted : init.IsEmitted "<init>" d isStatic code k.pool) (small : k.pool.size < 65536) :
    k.body? "<init>" d.descriptor = init.body? k.pool := by
  rw [ClassFile.body?, methods, List.find?_cons_of_pos (emitted.isNamed small), Option.bind_some]

theorem body?_invoke {init invoke : Member} {d d' : MethodDescriptor} {isStatic isStatic' : Bool}
    {code code' : Build Unit} (methods : k.methods = [init, invoke])
    (first : init.IsEmitted "<init>" d isStatic code k.pool)
    (emitted : invoke.IsEmitted "invoke" d' isStatic' code' k.pool) (small : k.pool.size < 65536) :
    k.body? "invoke" d'.descriptor = invoke.body? k.pool := by
  have other := first.not_isNamed small (show "<init>" ≠ "invoke" by decide) d'.descriptor
  rw [ClassFile.body?, methods, List.find?_cons_of_neg (by simp [other]),
    List.find?_cons_of_pos (emitted.isNamed small), Option.bind_some]

/-- Code is written only for parameters that take few slots. -/
theorem few_of_isBuilt {wrapper : CodeAttribute} {locals : UInt16} {c : Constructor} {t : Pool}
    (built : wrapper.IsBuilt locals (i.wrapperCode owner) t) (small : t.size < 65536)
    (performs : Build.Performs env (i.wrapperCode owner) (wrapperActions i c))
    (values : ∀ t ∈ i.site.descriptor.params, t.isVoid = false) :
    2 * slotsOf i.site.descriptor.params ≤ 65535 := by
  have written := built.length_le performs small
  have packed := length_le_packActions values 0 (firstSlot i.site.isStatic)
  have slots := (length_le_slotsOf values).2
  simp only [wrapperActions, packAllActions, List.length_append] at written
  omega

/-- A wrapper that is read back wraps calls. -/
theorem wraps_of_isBuilt {wrapper : CodeAttribute} {c : Constructor} {t : Pool} (n : Nat)
    (built : wrapper.IsBuilt (entrySlots i.site.descriptor i.site.isStatic) (i.wrapperCode owner) t)
    (small : t.size < 65536)
    (known : env.constructors i.thunk.internal
      (helperDescriptor owner i.site.isStatic).descriptor = some c)
    (params : c.params = (helperDescriptor owner i.site.isStatic).params)
    (entered : ∀ receiver (s : Shared σ) heap, env.run n c.pool c.body
      (.ref (.object heap.length) :: thisWords i.site.isStatic receiver)
        { s with heap := heap ++ [.object i.thunk.internal []] } =
          (.returned none, { s with heap := heap ++ [i.helperCell owner receiver] }))
    (spelled : i.site.descriptor.Spelled) :
    2 * slotsOf i.site.descriptor.params ≤ 65535 ∧
      ∃ b, Body.ofCode wrapper t = .ok b ∧ i.Wraps env owner (env.run (n + 1) t b) := by
  have values := spelled.values
  have performs : Build.Performs env (i.wrapperCode owner) (wrapperActions i c) :=
    performs_wrapperCode known params
  have few := few_of_isBuilt built small performs values
  obtain ⟨b, read, runs⟩ := built.runs performs small
    ((wrapperActions_spans params values).low (by decide))
  refine ⟨few, b, read, fun receiver args s held => ?_⟩
  obtain ⟨boxes, boxed⟩ := boxAll?_of_holds held
  rcases called : env.invoke interceptMethod (i.bridgeArguments receiver s.heap)
    { s with heap := i.packedHeap owner receiver boxes s.heap } with ⟨answer, s'⟩
  obtain ⟨answer, rfl⟩ := exists_answer called
  refine ⟨boxes, answer, s', boxed, called, calls_of_invoke called, ?_⟩
  exact ⟨runs _ _ _ _ _ (fits_arguments (by omega) held)
    (wrapperActions_ends params values (by omega) held boxed (entered receiver s) called),
      unboxedExit_ne_stuck _ _ _ _⟩

variable (env) in
/-- A helper that is read back relays calls. -/
theorem relays_of_isEmitted {invoke : Member}
    (emitted : invoke.IsEmitted "invoke" invokeDescriptor false
      (i.helper.invokeCode owner i.keptAs i.site.descriptor) k.pool)
    (small : k.pool.size < 65536) (spelled : i.site.descriptor.Spelled)
    (few : 2 * slotsOf i.site.descriptor.params ≤ 65535) (dollar : '$' ∈ i.keptAs.toList) (n : Nat) :
    ∃ b, invoke.body? k.pool = some b ∧ i.Relays env owner (env.run n k.pool b) := by
  have values := spelled.values
  have count := (length_le_slotsOf values).1
  obtain ⟨b, read, runs⟩ := emitted.runs env
    (performs_invokeCode spelled (by omega) dollar) small
    ((invokeActions_spans values).low (by omega))
  obtain ⟨enter, same⟩ := env.exists_run n
  refine ⟨b, read, fun receiver h a element items s present helped found => ?_⟩
  rw [same]
  have fits : (layOut [.ref (.object h), .ref (.object a)]).length ≤
      (entrySlots invokeDescriptor false).toNat := Nat.le_refl 2
  refine ⟨fun e refused => runs _ _ _ _ _ fits
    (invokeActions_refuse values (by omega) helped found refused), fun ws unboxed => ?_⟩
  rcases called : env.invoke (i.keptMethod owner) (thisWords i.site.isStatic receiver ++ ws) s
    with ⟨answer, s'⟩
  obtain ⟨exit, boxed, ends⟩ := invokeActions_ends (by omega) present helped found unboxed called
  exact ⟨answer, s', exit, rfl, calls_of_invoke called, boxed, boxed.ne_stuck,
    runs _ _ _ _ _ fits ends⟩

/-- The environment has the constructor of a helper that it loads. -/
theorem constructor_known {majorVersion : UInt16} {nested : Bool}
    (made : i.helper.classFile owner majorVersion nested = .ok k) (small : k.pool.size < 65536)
    (loaded : LoadsConstructor env i.thunk (helperDescriptor owner i.site.isStatic) k) :
    ∃ c, env.constructors i.thunk.internal (helperDescriptor owner i.site.isStatic).descriptor =
        some c ∧ c.params = (helperDescriptor owner i.site.isStatic).params ∧
      ∀ (enter : Enter σ) receiver (s : Shared σ) heap, runBody env enter c.pool c.body
        (.ref (.object heap.length) :: thisWords i.site.isStatic receiver)
          { s with heap := heap ++ [.object i.thunk.internal []] } =
            (.returned none, { s with heap := heap ++ [i.helperCell owner receiver] }) := by
  obtain ⟨init, invoke, methods, emitted, -⟩ := Helper.methods_of_classFile rfl made
  obtain ⟨b, read, constructs⟩ := constructor_runs env emitted small
  refine ⟨⟨(helperDescriptor owner i.site.isStatic).params, b, k.pool⟩, ?_, rfl, constructs⟩
  rw [loaded, body?_init methods emitted small, read, Option.map_some]

theorem dollar_of_named (named : ∃ suffix, i.keptAs = keptName i.site.name ++ suffix) :
    '$' ∈ i.keptAs.toList := by
  obtain ⟨suffix, same⟩ := named
  rw [same, keptName, String.toList_append, String.toList_append]
  exact List.mem_append_left _ (List.mem_append_right _ (by decide))

/-- Calls of an intercepted method go through the bridge to the kept body: the wrapper in place of
the method calls the bridge once with what it packs and a helper, the helper calls the kept body
once with what it unpacks, and unpacking undoes packing. -/
theorem delegates {text : String} {c c' : ClassFile} {t : Pool} {majorVersion : UInt16}
    {nested : Bool} (parsed : MethodDescriptor.ofText text = .ok i.site.descriptor)
    (named : ∃ suffix, i.keptAs = keptName i.site.name ++ suffix) (sound : c.pool.Sound)
    (woven : i.weave owner c = .ok () c')
    (grown : c'.pool.Extends t) (small : t.size < 65536)
    (made : i.helper.classFile owner majorVersion nested = .ok k) (written : k.pool.size < 65536)
    (loaded : LoadsConstructor env i.thunk (helperDescriptor owner i.site.isStatic) k) (n : Nat) :
    (∃ m b, c'.methods[i.site.index.toNat]? = some m ∧ m.body? t = some b ∧
      i.Wraps env owner (env.run (n + 1) t b)) ∧
    (∃ b, k.body? "invoke" invokeDescriptor.descriptor = some b ∧
      i.Relays env owner (env.run n k.pool b)) ∧
    ∀ heap ws rs, List.Forall₂ (env.Admits heap) i.site.descriptor.params ws →
      (boxAll? i.site.descriptor.params ws = some rs ↔ rs.length = i.site.descriptor.params.length ∧
        env.unboxAll heap i.site.descriptor.params rs = .ok ws) := by
  have spelled := MethodDescriptor.spelled_of_ofText parsed
  have dollar := dollar_of_named named
  obtain ⟨m, wrapper, at_index, coded, built⟩ := weave_wraps woven sound
  obtain ⟨init, invoke, methods, first, second⟩ := Helper.methods_of_classFile rfl made
  obtain ⟨constructor, known, params, constructs⟩ := constructor_known made written loaded
  obtain ⟨enter, same⟩ := env.exists_run n
  obtain ⟨few, b, read, wraps⟩ := wraps_of_isBuilt n (built.mono grown) small known params
    (fun receiver s heap => same ▸ constructs enter receiver s heap) spelled
  obtain ⟨b', read', relays⟩ := relays_of_isEmitted env second written spelled few dollar n
  refine ⟨⟨m, b, at_index, ?_, wraps⟩,
    ⟨b', (body?_invoke methods first second written).trans read', relays⟩,
    fun heap ws rs admitted =>
      ⟨fun boxed => ⟨length_of_boxAll? boxed, unboxAll_of_boxAll? boxed admitted⟩,
        fun ⟨length, unboxed⟩ => boxAll?_of_unboxAll length unboxed⟩⟩
  rw [Member.body?, coded, Option.bind_some, read]
  rfl

/-! ## A class with one method -/

/-- The image of a class `A` with a method `m` from a long to zero. -/
def zeroImage : Bytes :=
  [0xCA, 0xFE, 0xBA, 0xBE, 0, 0, 0, 52, 0, 8,
   1, 0, 1, 65, 7, 0, 1,
   1, 0, 16, 106, 97, 118, 97, 47, 108, 97, 110, 103, 47, 79, 98, 106, 101, 99, 116, 7, 0, 3,
   1, 0, 1, 109, 1, 0, 4, 40, 74, 41, 73, 1, 0, 4, 67, 111, 100, 101,
   0, 33, 0, 2, 0, 4, 0, 0, 0, 0,
   0, 1, 0, 1, 0, 5, 0, 6, 0, 1, 0, 7, 0, 0, 0, 14, 0, 1, 0, 3, 0, 0, 0, 2, 3, 172, 0, 0, 0, 0,
   0, 0]

def zeroClass : ClassFile := (ClassFile.ofBytes {} zeroImage).toOption.getD default

theorem ofBytes_zeroImage : ClassFile.ofBytes {} zeroImage = .ok zeroClass :=
  except_eq_ok_getD (by decide +kernel)

/-- The interception of the method. -/
def zeroIntercept : PlannedIntercept where
  site := { (default : MethodSite) with
    name := "m"
    descriptor := ⟨[.primitive .long], .primitive .int⟩ }
  length := 1
  token := "0"
  keptAs := keptName "m"
  thunk := ⟨"A$cwCall1"⟩

/-- The method of the class, and the attribute with its code. -/
theorem method_zeroClass : ∃ m code, zeroClass.methods[0]? = some m ∧
    m.attributes.find? (·.body.code?.isSome) = some code := by
  have coded : (zeroClass.methods[0]?.bind fun m =>
      m.attributes.find? (·.body.code?.isSome)).isSome = true := by decide +kernel
  obtain ⟨code, found⟩ := Option.isSome_iff_exists.1 coded
  obtain ⟨m, at_zero, found⟩ := Option.bind_eq_some_iff.1 found
  exact ⟨m, code, at_zero, found⟩

/-- The pool of the class with the names of the moved method. -/
def zeroPool : Pool :=
  (Pool.addUtf8 zeroIntercept.site.descriptor.descriptor
    (Pool.addUtf8 zeroIntercept.keptAs zeroClass.pool).2).2

/-- The reference is null or a box of the type. -/
def isBoxOrNull (p : Primitive) : Ref → Bool
  | .null => true
  | .box b => b.type == p
  | _ => false

theorem isBoxOrNull_iff {p : Primitive} {r : Ref} :
    isBoxOrNull p r = true ↔ r = .null ∨ ∃ b : Box, b.type = p ∧ r = .box b := by
  cases r <;> simp [isBoxOrNull]

theorem boxed_inj {p q : Primitive} (h : p.boxed.internal = q.boxed.internal) : p = q := by
  revert h
  cases p <;> cases q <;> decide

/-- An environment with the constructor of a helper, in which every call raises an exception. -/
def raisingEnv (k : ClassFile) : Env Unit where
  isInstance _ r name := Primitive.all.all fun p => p.boxed.internal != name || isBoxOrNull p r
  constructors owner descriptor :=
    if owner = "A$cwCall1" ∧ descriptor = "(LA;)V" then
      (k.body? "<init>" descriptor).map (⟨[.reference ⟨"A"⟩], ·, k.pool⟩)
    else none
  call _ _ heap world := (.error .null, heap, world)
  constructors_object := rfl
  isInstance_object _ r := by
    refine List.all_eq_true.2 fun p _ => ?_
    cases p <;> rfl
  isInstance_boxed _ r p := by
    rw [← isBoxOrNull_iff, List.all_eq_true]
    constructor
    · intro each
      have own := each p (by cases p <;> decide)
      simpa using own
    · intro held q _
      by_cases same : q.boxed.internal = p.boxed.internal
      · rw [boxed_inj same, held, Bool.or_true]
      · rw [bne_iff_ne.2 same, Bool.true_or]
  call_answers _ _ _ _ _ h := nomatch h

theorem loads_raisingEnv (k : ClassFile) : LoadsConstructor (raisingEnv k) ⟨"A$cwCall1"⟩
    (helperDescriptor ⟨"A"⟩ false) k := rfl

/-- The method is intercepted, its helper is made, and calls are delegated. -/
theorem delegates_zero : ∃ c' k, zeroIntercept.weave ⟨"A"⟩ zeroClass = .ok () c' ∧
    zeroIntercept.helper.classFile ⟨"A"⟩ 52 false = .ok k ∧
    (∃ m b, c'.methods[0]? = some m ∧ m.body? c'.pool = some b ∧
      zeroIntercept.Wraps (raisingEnv k) ⟨"A"⟩ ((raisingEnv k).run 1 c'.pool b)) ∧
    ∃ b, k.body? "invoke" invokeDescriptor.descriptor = some b ∧
      zeroIntercept.Relays (raisingEnv k) ⟨"A"⟩ ((raisingEnv k).run 0 k.pool b) := by
  have spelled : zeroIntercept.site.descriptor.Spelled :=
    ⟨fun t mem => List.mem_singleton.1 mem ▸ .element (.primitive _), .inr (.element (.primitive _))⟩
  have parsed := MethodDescriptor.ofText_descriptor spelled
  have named : ∃ suffix, zeroIntercept.keptAs = keptName zeroIntercept.site.name ++ suffix :=
    ⟨"", by decide⟩
  have sound : zeroClass.pool.Sound := (ClassFile.decoded_of_ofBytes ofBytes_zeroImage).readable.pool
  have few : slotsOf zeroIntercept.site.descriptor.params < 65535 := by decide
  obtain ⟨k, made⟩ := except_exists_ok
    (show (zeroIntercept.helper.classFile ⟨"A"⟩ 52 false).toBool = true by decide +kernel)
  have loaded := loads_raisingEnv k
  have written : k.pool.size < 65536 := by
    have size := Helper.size_of_classFile (raisingEnv k) rfl performs_constructorCode
      (performs_invokeCode spelled few (dollar_of_named named)) made
    have length : (constructorActions ⟨"A"⟩ zeroIntercept).length +
      (invokeActions ⟨"A"⟩ zeroIntercept).length = 16 := rfl
    omega
  obtain ⟨constructor, known, params, -⟩ := constructor_known made written loaded
  obtain ⟨m, code, at_zero, coded⟩ := method_zeroClass
  obtain ⟨⟨body, q⟩, built⟩ := except_exists_ok
    (show ((Body.build (entrySlots zeroIntercept.site.descriptor false)
      (zeroIntercept.wrapperCode ⟨"A"⟩)).run zeroPool).toBool = true by decide +kernel)
  rw [edit_run_eq_ok] at built
  have names := (Pool.grows_addUtf8 zeroIntercept.keptAs zeroClass.pool).trans
    (Pool.grows_addUtf8 zeroIntercept.site.descriptor.descriptor _)
  obtain ⟨size, -, short⟩ :=
    Body.toCode_of_build (performs_wrapperCode known params) (names.sound sound) built
  have length : (wrapperActions zeroIntercept constructor).length = 17 := rfl
  rw [length] at size short
  obtain ⟨wrapper, encoded⟩ := short (by decide)
  have movement : zeroIntercept.movedMethod m code zeroClass.pool = .ok _ zeroPool :=
    step_bind_eq_ok.2 ⟨_, _, edit_change_eq_ok.2 rfl, rfl⟩
  have wrapping : zeroIntercept.wrappedMethod ⟨"A"⟩ m zeroPool = .ok _ q :=
    step_bind_eq_ok.2 ⟨body, q, built, step_bind_eq_ok.2 ⟨wrapper, q, encoded, rfl⟩⟩
  have small : q.size < 65536 := by
    have start : zeroClass.pool.size = 8 := by decide +kernel
    have first := Pool.addUtf8_adds zeroIntercept.keptAs zeroClass.pool
    have second := Pool.addUtf8_adds zeroIntercept.site.descriptor.descriptor
      (Pool.addUtf8 zeroIntercept.keptAs zeroClass.pool).2
    have named : zeroPool.size ≤ 10 := Nat.le_trans second (by omega)
    omega
  have woven := weave_of_steps at_zero coded movement wrapping
  obtain ⟨wraps, relays, -⟩ := delegates parsed named sound woven (.refl _) small made written
    loaded 0
  exact ⟨_, k, woven, made, wraps, relays⟩

end PlannedIntercept

end Calls

end Weave

end Weft
