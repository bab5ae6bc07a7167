import Weft.Proofs.Machine.Resolution

/-!
# Packing and unpacking arguments

Arguments in local slots are packed into an array of objects, and the objects of an array are put on
the stack as arguments. The invariants say how much of the array is filled and how many arguments
are on the stack; each parameter takes the slots of its type. One undoes the other.
-/

namespace Weft

namespace Machine

/-! ## Boxes -/

/-- The objects for values of the types. -/
def boxAll? : List JType → List Word → Option (List Ref)
  | [], [] => some []
  | t :: ts, w :: ws => do return (← t.box? w) :: (← boxAll? ts ws)
  | _, _ => none

section Unboxing

variable {σ : Type} (env : Env σ) (heap : List Cell)

/-- The value of the type for an object, or what its check throws. -/
def Env.unbox : JType → Ref → Except Fault Word
  | .primitive _, .null => .error .nullPointer
  | .primitive p, .box b => if b.type = p then .ok (.number b.number) else .error .classCast
  | .primitive _, _ => .error .classCast
  | t, r =>
    match t.classOperand? with
    | some name => if env.isInstance heap r name then .ok (.ref r) else .error .classCast
    | none => .error .classCast

/-- The values of the types for the first objects of an array. -/
def Env.unboxAll : List JType → List Ref → Except Fault (List Word)
  | [], _ => .ok []
  | _ :: _, [] => .error .arrayIndex
  | t :: ts, r :: rs => do
    let w ← env.unbox heap t r
    return w :: (← Env.unboxAll ts rs)

/-- The word stands for a value of the type, an object for one of its class. -/
def Env.Admits (t : JType) (w : Word) : Prop :=
  t.Holds w ∧ ∀ r name, w = .ref r → t.classOperand? = some name → env.isInstance heap r name = true

variable {env heap}

theorem boxAll?_of_holds {ts : List JType} {ws : List Word} (h : List.Forall₂ JType.Holds ts ws) :
    ∃ rs, boxAll? ts ws = some rs := by
  induction h with
  | nil => exact ⟨[], rfl⟩
  | cons head _ ih =>
    obtain ⟨r, boxed⟩ := head.box?
    obtain ⟨rs, rest⟩ := ih
    exact ⟨r :: rs, by simp [boxAll?, boxed, rest]⟩

theorem boxAll?_cons_eq_some {t : JType} {ts : List JType} {w : Word} {ws : List Word}
    {rs : List Ref} : boxAll? (t :: ts) (w :: ws) = some rs ↔
      ∃ r rs', t.box? w = some r ∧ boxAll? ts ws = some rs' ∧ rs = r :: rs' := by
  simp only [boxAll?, Option.bind_eq_bind, Option.bind_eq_some_iff, Option.pure_def,
    Option.some.injEq, eq_comm (b := rs)]
  constructor
  · rintro ⟨r, boxed, rs', rest, same⟩
    exact ⟨r, rs', boxed, rest, same⟩
  · rintro ⟨r, rs', boxed, rest, same⟩
    exact ⟨r, boxed, rs', rest, same⟩

theorem length_of_boxAll? {ts : List JType} {ws : List Word} {rs : List Ref}
    (h : boxAll? ts ws = some rs) : rs.length = ts.length := by
  induction ts generalizing ws rs with
  | nil =>
    cases ws with
    | nil =>
      cases h
      rfl
    | cons w ws => cases h
  | cons t ts ih =>
    cases ws with
    | nil => cases h
    | cons w ws =>
      obtain ⟨r, rs', -, rest, rfl⟩ := boxAll?_cons_eq_some.1 h
      exact congrArg (· + 1) (ih rest)

theorem unbox_of_box? {t : JType} {w : Word} {r : Ref} (boxed : t.box? w = some r)
    (admitted : env.Admits heap t w) : env.unbox heap t r = .ok w := by
  obtain ⟨held, instances⟩ := admitted
  cases t with
  | void => exact held.elim
  | primitive p =>
    obtain ⟨b, rfl, rfl⟩ := held
    rw [JType.box?, b.of?_number] at boxed
    cases boxed
    exact if_pos rfl
  | reference name | array n element =>
    obtain ⟨r, rfl⟩ := held
    cases boxed
    exact if_pos (instances r _ rfl rfl)

theorem box?_of_unbox {t : JType} {w : Word} {r : Ref} (h : env.unbox heap t r = .ok w) :
    t.box? w = some r := by
  cases t with
  | void => cases h
  | primitive p =>
    cases r with
    | box b =>
      simp only [Env.unbox] at h
      split at h
      · rename_i same
        cases h
        rw [JType.box?, ← same, b.of?_number]
        rfl
      · cases h
    | _ => cases h
  | reference name | array n element =>
    simp only [Env.unbox, JType.classOperand?] at h
    split at h <;> cases h
    rfl

/-- The values of types are those of the first, for the first object, and of the others. -/
theorem unboxAll_cons_eq_ok {t : JType} {ts : List JType} {rs : List Ref} {ws : List Word}
    (h : env.unboxAll heap (t :: ts) rs = .ok ws) :
    ∃ r rs' w ws', rs = r :: rs' ∧ env.unbox heap t r = .ok w ∧
      env.unboxAll heap ts rs' = .ok ws' ∧ ws = w :: ws' := by
  cases rs with
  | nil => cases h
  | cons r rs =>
    obtain ⟨w, first, h⟩ := except_bind_eq_ok.1 h
    obtain ⟨ws', rest, h⟩ := except_bind_eq_ok.1 h
    exact ⟨r, rs, w, ws', rfl, first, rest, (except_pure_eq_ok.1 h).symm⟩

theorem kinds_of_unboxAll {ts : List JType} {ws : List Word} {rs : List Ref}
    (h : env.unboxAll heap ts rs = .ok ws) : ws.map (some ·.kind) = ts.map JType.kind? := by
  induction ts generalizing rs ws with
  | nil =>
    cases h
    rfl
  | cons t ts ih =>
    obtain ⟨r, rs, w, ws, rfl, first, rest, rfl⟩ := unboxAll_cons_eq_ok h
    rw [List.map_cons, List.map_cons, ih rest, JType.kind?_of_box? (box?_of_unbox first)]

/-- Objects of packed arguments are unpacked to the arguments. -/
theorem unboxAll_of_boxAll? {ts : List JType} {ws : List Word} {rs : List Ref}
    (boxed : boxAll? ts ws = some rs) (admitted : List.Forall₂ (env.Admits heap) ts ws) :
    env.unboxAll heap ts rs = .ok ws := by
  induction admitted generalizing rs with
  | nil => rfl
  | @cons t w ts ws head _ ih =>
    obtain ⟨r, rs', first, rest, rfl⟩ := boxAll?_cons_eq_some.1 boxed
    rw [Env.unboxAll, unbox_of_box? first head, ih rest]
    rfl

/-- Arguments that objects are unpacked to are packed as these objects. -/
theorem boxAll?_of_unboxAll {ts : List JType} {ws : List Word} {rs : List Ref}
    (length : rs.length = ts.length) (h : env.unboxAll heap ts rs = .ok ws) :
    boxAll? ts ws = some rs := by
  induction ts generalizing rs ws with
  | nil =>
    cases h
    cases rs with
    | nil => rfl
    | cons r rs => cases length
  | cons t ts ih =>
    obtain ⟨r, rs, w, ws, rfl, first, rest, rfl⟩ := unboxAll_cons_eq_ok h
    exact boxAll?_cons_eq_some.2 ⟨r, rs, box?_of_unbox first, ih (by simpa using length) rest, rfl⟩

end Unboxing

/-! ## Runs -/

section Runs

variable {σ : Type} (env : Env σ) (enter : Enter σ)

/-- The actions lead from a state to another. -/
def Leads (as : List Act) (m m' : State σ) : Prop :=
  as.forM (perform env enter) m = .ok () m'

/-- The actions end in a state with that heap and that rest of the world. -/
def Ends (as : List Act) (m : State σ) (e : Exit) (s : Shared σ) : Prop :=
  ∃ m', as.forM (perform env enter) m = .error e m' ∧ m'.shared = s

variable {env enter} {as bs : List Act} {m m' m'' : State σ} {e : Exit} {s : Shared σ}

theorem forM_append (as bs : List Act) : (as ++ bs).forM (perform env enter) =
    as.forM (perform env enter) >>= fun _ => bs.forM (perform env enter) :=
  List.forM_append

namespace Leads

theorem refl (m : State σ) : Leads env enter [] m m := rfl

theorem single {a : Act} (h : perform env enter a m = .ok () m') : Leads env enter [a] m m' :=
  step_bind_ok h

theorem trans (h : Leads env enter as m m') (h' : Leads env enter bs m' m'') :
    Leads env enter (as ++ bs) m m'' := by
  rw [Leads, forM_append, step_bind_ok h]
  exact h'

theorem ends (h : Leads env enter as m m') (h' : Ends env enter bs m' e s) :
    Ends env enter (as ++ bs) m e s := by
  rw [Ends, forM_append, step_bind_ok h]
  exact h'

end Leads

namespace Ends

theorem single {a : Act} (m' : State σ) (h : perform env enter a m = .error e m')
    (same : m'.shared = s) : Ends env enter [a] m e s := ⟨m', step_bind_error h, same⟩

theorem append (h : Ends env enter as m e s) (bs : List Act) :
    Ends env enter (as ++ bs) m e s := by
  obtain ⟨m', ended, same⟩ := h
  exact ⟨m', by rw [forM_append, step_bind_error ended], same⟩

end Ends

end Runs

/-! ## Single actions -/

/-- Sets what stands at an address. -/
def Shared.set {σ : Type} (s : Shared σ) (a : Nat) (c : Cell) : Shared σ :=
  { s with heap := s.heap.set a c }

section Actions

variable {σ : Type} {env : Env σ} {enter : Enter σ} {stack : List Word}
  {locals : List (Option Word)} {s : Shared σ} {a : Nat} {element : String} {items : List Ref}

theorem cellAt_eq {m : State σ} {c : Cell} (found : m.shared.heap[a]? = some c) :
    cellAt (.object a) m = .ok (a, c) m := by
  simp only [cellAt, found]

theorem arrayAt_eq {m : State σ} (found : m.shared.heap[a]? = some (.array element items)) :
    arrayAt (.object a) m = .ok (a, element, items) m :=
  step_bind_ok (cellAt_eq found)

theorem objectAt_eq {m : State σ} {className : String} {fields : List (FieldKey × Word)}
    (found : m.shared.heap[a]? = some (.object className fields)) :
    objectAt (.object a) m = .ok (a, className, fields) m :=
  step_bind_ok (cellAt_eq found)

theorem checkIndex_eq {m : State σ} {v : Int32} {n length : Nat} (value : v.toInt = n)
    (inside : n < length) : checkIndex v length m = .ok n m := by
  rw [checkIndex, if_pos (by omega), value]
  rfl

theorem require_eq {m : State σ} {c : Bool} {e : Exit} (h : c = true) :
    require c e m = .ok () m := by
  rw [require, if_pos h]
  rfl

theorem require_eq_error {m : State σ} {c : Bool} {e : Exit} (h : c = false) :
    require c e m = .error e m := by
  rw [require, h]
  rfl

theorem load_leads {t : JType} {w : Word} {slot : UInt16} (kind : t.kind? = some w.kind)
    (found : locals[slot.toNat]? = some (some w)) :
    Leads env enter (Build.loadActions t slot) ⟨stack, locals, s⟩ ⟨w :: stack, locals, s⟩ := by
  rw [Build.loadActions, kind]
  refine .single ?_
  simp only [perform, found, if_true]
  rfl

theorem box_leads {t : JType} {w : Word} {r : Ref} (boxed : t.box? w = some r) :
    Leads env enter (Build.boxActions t) ⟨w :: stack, locals, s⟩ ⟨.ref r :: stack, locals, s⟩ := by
  cases t with
  | void => cases boxed
  | primitive p =>
    cases w with
    | ref r => cases boxed
    | number n =>
      obtain ⟨b, made, rfl⟩ := Option.map_eq_some_iff.1 boxed
      obtain ⟨rfl, rfl⟩ := Box.of?_eq_some made
      refine .single ?_
      have popped : popWord b.type.kind ⟨.number b.number :: stack, locals, s⟩ =
          .ok (.number b.number) ⟨stack, locals, s⟩ := if_pos b.kind_number
      refine (step_bind_ok popped).trans ?_
      simp only [b.of?_number]
      rfl
  | reference name =>
    cases w with
    | ref r =>
      cases boxed
      exact .refl _
    | number n => cases boxed
  | array n element =>
    cases w with
    | ref r =>
      cases boxed
      exact .refl _
    | number n => cases boxed

theorem storeItem_leads {r : Ref} {v : Int32} {n : Nat} (value : v.toInt = n)
    (found : s.heap[a]? = some (.array element items)) (inside : n < items.length)
    (instance_of : env.isInstance s.heap r element = true) :
    Leads env enter [.storeItem] ⟨.ref r :: .number (.int v) :: .ref (.object a) :: stack, locals, s⟩
      ⟨stack, locals, s.set a (.array element (items.set n r))⟩ := by
  refine .single ?_
  refine (step_bind_ok rfl).trans ((step_bind_ok rfl).trans ((step_bind_ok rfl).trans ?_))
  refine (step_bind_ok (arrayAt_eq found)).trans ?_
  refine (step_bind_ok (checkIndex_eq value inside)).trans ((step_bind_ok rfl).trans ?_)
  exact (step_bind_ok (require_eq instance_of)).trans rfl

theorem loadItem_leads {r : Ref} {v : Int32} {n : Nat} (value : v.toInt = n)
    (found : s.heap[a]? = some (.array element items)) (at_n : items[n]? = some r) :
    Leads env enter [.loadItem] ⟨.number (.int v) :: .ref (.object a) :: stack, locals, s⟩
      ⟨.ref r :: stack, locals, s⟩ := by
  refine .single ?_
  have inside := (List.getElem?_eq_some_iff.1 at_n).1
  refine (step_bind_ok rfl).trans ((step_bind_ok rfl).trans ?_)
  refine (step_bind_ok (arrayAt_eq found)).trans ?_
  refine (step_bind_ok (checkIndex_eq value inside)).trans ?_
  simp only [List.getD, at_n, Option.getD_some]
  rfl

theorem loadItem_ends {v : Int32} {n : Nat} (value : v.toInt = n)
    (found : s.heap[a]? = some (.array element items)) (outside : items.length ≤ n) :
    Ends env enter [.loadItem] ⟨.number (.int v) :: .ref (.object a) :: stack, locals, s⟩
      (.thrown .arrayIndex) s := by
  have refused (m : State σ) : checkIndex v items.length m = .error (.thrown .arrayIndex) m := by
    rw [checkIndex, if_neg (by omega)]
    rfl
  refine .single ⟨stack, locals, s⟩ ?_ rfl
  refine (step_bind_ok rfl).trans ((step_bind_ok rfl).trans ?_)
  exact (step_bind_ok (arrayAt_eq found)).trans (step_bind_error (refused _))

theorem cast_leads {r : Ref} {name : String} (h : env.isInstance s.heap r name = true) :
    Leads env enter [.cast name] ⟨.ref r :: stack, locals, s⟩ ⟨.ref r :: stack, locals, s⟩ :=
  .single <| (step_bind_ok rfl).trans <| (step_bind_ok rfl).trans <|
    (step_bind_ok (require_eq h)).trans rfl

theorem cast_ends {r : Ref} {name : String} (h : env.isInstance s.heap r name = false) :
    Ends env enter [.cast name] ⟨.ref r :: stack, locals, s⟩ (.thrown .classCast) s :=
  .single ⟨stack, locals, s⟩ ((step_bind_ok rfl).trans <| (step_bind_ok rfl).trans <|
    step_bind_error (require_eq_error h)) rfl

/-- A type other than a primitive one only checks its objects. -/
theorem castActions_eq {t : JType} {name : String} (h : t.classOperand? = some name) :
    (t = .object ∧ name = ClassName.object.internal ∧ Build.castActions t = []) ∨
      Build.castActions t = [.cast name] := by
  unfold Build.castActions
  split
  · rename_i object
    subst object
    cases h
    exact .inl ⟨rfl, rfl, rfl⟩
  · rw [h]
    exact .inr rfl

theorem castActions_leads {t : JType} {name : String} {r : Ref} (h : t.classOperand? = some name)
    (instance_of : env.isInstance s.heap r name = true) :
    Leads env enter (Build.castActions t) ⟨.ref r :: stack, locals, s⟩
      ⟨.ref r :: stack, locals, s⟩ := by
  obtain ⟨-, -, none⟩ | some := castActions_eq h
  · rw [none]
    exact .refl _
  · rw [some]
    exact cast_leads instance_of

theorem castActions_ends {t : JType} {name : String} {r : Ref} (h : t.classOperand? = some name)
    (other : env.isInstance s.heap r name = false) :
    Ends env enter (Build.castActions t) ⟨.ref r :: stack, locals, s⟩ (.thrown .classCast) s := by
  obtain ⟨-, rfl, -⟩ | some := castActions_eq h
  · rw [env.isInstance_object] at other
    cases other
  · rw [some]
    exact cast_ends other

theorem unbox_leads {t : JType} {w : Word} {r : Ref} (h : env.unbox s.heap t r = .ok w) :
    Leads env enter (Build.unboxActions t) ⟨.ref r :: stack, locals, s⟩
      ⟨w :: stack, locals, s⟩ := by
  cases t with
  | void => cases h
  | primitive p =>
    cases r with
    | box b =>
      simp only [Env.unbox] at h
      split at h
      · rename_i same
        cases h
        refine (cast_leads ((env.isInstance_boxed _ _ p).2 (.inr ⟨b, same, rfl⟩))).trans (.single ?_)
        have opened (m : State σ) : openBox p (.box b) m = .ok b.number m := by
          rw [openBox, if_pos same]
          rfl
        exact (step_bind_ok rfl).trans ((step_bind_ok (opened _)).trans rfl)
      · cases h
    | _ => cases h
  | _ =>
    simp only [Env.unbox, JType.classOperand?] at h
    split at h
    · rename_i instance_of
      cases h
      exact castActions_leads rfl instance_of
    · cases h

theorem unbox_ends {t : JType} {e : Fault} {r : Ref} (some : t.isVoid = false)
    (h : env.unbox s.heap t r = .error e) :
    Ends env enter (Build.unboxActions t) ⟨.ref r :: stack, locals, s⟩ (.thrown e) s := by
  cases t with
  | void => cases some
  | primitive p =>
    have cast_fails (other : ¬ (r = .null ∨ ∃ b : Box, b.type = p ∧ r = .box b)) :
        Ends env enter [.cast p.boxed.internal, .unbox p] ⟨.ref r :: stack, locals, s⟩
          (.thrown .classCast) s := by
      rw [← env.isInstance_boxed s.heap, Bool.not_eq_true] at other
      exact (cast_ends other).append [.unbox p]
    cases r with
    | null =>
      cases h
      refine (cast_leads ((env.isInstance_boxed _ _ p).2 (.inl rfl))).ends ?_
      refine .single ⟨stack, locals, s⟩ ?_ rfl
      exact (step_bind_ok rfl).trans (step_bind_error rfl)
    | box b =>
      simp only [Env.unbox] at h
      split at h
      · cases h
      · rename_i other
        cases h
        exact cast_fails (by simp [other])
    | _ =>
      cases h
      exact cast_fails (by simp)
  | _ =>
    simp only [Env.unbox, JType.classOperand?] at h
    split at h
    · cases h
    · rename_i other
      cases h
      exact castActions_ends rfl (Bool.not_eq_true _ ▸ other)

theorem makeArray_leads {v : Int32} {n : Nat} (value : v.toInt = n) :
    Leads env enter [.makeArray element] ⟨.number (.int v) :: stack, locals, s⟩
      ⟨.ref (.object s.heap.length) :: stack, locals,
        { s with heap := s.heap ++ [.array element (List.replicate n .null)] }⟩ := by
  refine .single ((step_bind_ok rfl).trans ((step_bind_ok (require_eq ?_)).trans ?_))
  · exact decide_eq_true (by omega)
  · rw [value]
    rfl

theorem getField_leads {f : FieldKey} {w : Word} {className : String}
    {fields : List (FieldKey × Word)} (found : s.heap[a]? = some (.object className fields))
    (stored : fields.lookup f = some w) (kind : w.kind = f.kind) :
    Leads env enter [.getField f] ⟨.ref (.object a) :: stack, locals, s⟩
      ⟨w :: stack, locals, s⟩ := by
  refine .single ((step_bind_ok rfl).trans ((step_bind_ok (objectAt_eq found)).trans ?_))
  simp only [stored]
  exact (step_bind_ok (require_eq (decide_eq_true kind))).trans rfl

theorem putField_leads {f : FieldKey} {w : Word} {className : String}
    {fields : List (FieldKey × Word)} (found : s.heap[a]? = some (.object className fields))
    (kind : w.kind = f.kind) :
    Leads env enter [.putField f] ⟨w :: .ref (.object a) :: stack, locals, s⟩
      ⟨stack, locals, s.set a (.object className ((f, w) :: fields))⟩ := by
  have popped : popWord f.kind ⟨w :: .ref (.object a) :: stack, locals, s⟩ =
      .ok w ⟨.ref (.object a) :: stack, locals, s⟩ := if_pos kind
  exact .single ((step_bind_ok popped).trans
    ((step_bind_ok rfl).trans ((step_bind_ok (objectAt_eq found)).trans rfl)))

theorem popArguments_eq {params : List JType} {args : List Word}
    (kinds : args.map (some ·.kind) = params.map JType.kind?) :
    popArguments params ⟨args.reverse ++ stack, locals, s⟩ = .ok args ⟨stack, locals, s⟩ := by
  have length : params.length = args.reverse.length := by
    simpa using (congrArg List.length kinds).symm
  have taken : ((args.reverse ++ stack).take params.length).reverse = args := by
    rw [length, List.take_left, List.reverse_reverse]
  have dropped : (args.reverse ++ stack).drop params.length = stack := by
    rw [length, List.drop_left]
  simp only [popArguments, taken, dropped, kinds, if_true]

theorem construct_leads {c : Constructor} {args : List Word} {r : Ref} {s' : Shared σ}
    (kinds : args.map (some ·.kind) = c.params.map JType.kind?)
    (entered : enter c (.ref r :: args) s = (.returned none, s')) :
    Leads env enter [.construct c] ⟨args.reverse ++ .ref r :: stack, locals, s⟩
      ⟨stack, locals, s'⟩ := by
  refine .single ((step_bind_ok (popArguments_eq kinds)).trans ((step_bind_ok rfl).trans ?_))
  simp only [callConstructor, entered]

theorem Env.invoke_answers {m : Method} {args : List Word} {w : Option Word} {s' : Shared σ}
    (h : env.invoke m args s = (.ok w, s')) : m.descriptor.ret.Answers w :=
  env.call_answers m args s.heap s.world w (congrArg Prod.fst h)

theorem pushAnswer_eq {t : JType} {w : Option Word} (h : t.Answers w) :
    pushAnswer t w ⟨stack, locals, s⟩ = .ok () ⟨w.toList ++ stack, locals, s⟩ := by
  cases w with
  | none =>
    obtain rfl : t = .void := h
    rfl
  | some w =>
    refine (step_bind_ok (require_eq ?_)).trans rfl
    exact decide_eq_true (JType.Holds.kind? h)

/-- The words of a call below those on the stack. -/
def callStack (isStatic : Bool) (r : Ref) (args stack : List Word) : List Word :=
  args.reverse ++ if isStatic then stack else .ref r :: stack

/-- The words that a call passes on. -/
def callWords (isStatic : Bool) (r : Ref) (args : List Word) : List Word :=
  if isStatic then args else .ref r :: args

section Calls

variable {isStatic : Bool} {method : Method} {args : List Word} {r : Ref} {s' : Shared σ}

/-- A call takes its words from the stack and pushes what it answers. -/
theorem perform_invoke (kinds : args.map (some ·.kind) = method.descriptor.params.map JType.kind?)
    (present : isStatic = false → r ≠ .null) :
    perform env enter (.invoke isStatic method) ⟨callStack isStatic r args stack, locals, s⟩ =
      (do pushAnswer method.descriptor.ret (← callMethod env method (callWords isStatic r args)))
        ⟨stack, locals, s⟩ := by
  refine (step_bind_ok (popArguments_eq kinds)).trans ?_
  cases isStatic with
  | true => rfl
  | false => exact (step_bind_ok rfl).trans (step_bind_ok (require_eq (bne_iff_ne.2 (present rfl))))

theorem invoke_leads {w : Option Word}
    (kinds : args.map (some ·.kind) = method.descriptor.params.map JType.kind?)
    (present : isStatic = false → r ≠ .null)
    (called : env.invoke method (callWords isStatic r args) s = (.ok w, s')) :
    Leads env enter [.invoke isStatic method] ⟨callStack isStatic r args stack, locals, s⟩
      ⟨w.toList ++ stack, locals, s'⟩ := by
  have pushed : pushAnswer method.descriptor.ret w ⟨stack, locals, s'⟩ =
      .ok () ⟨w.toList ++ stack, locals, s'⟩ := pushAnswer_eq (env.invoke_answers called)
  have answered : callMethod env method (callWords isStatic r args) ⟨stack, locals, s⟩ =
      .ok w ⟨stack, locals, s'⟩ := by
    simp only [callMethod, called]
  exact .single ((perform_invoke kinds present).trans ((step_bind_ok answered).trans pushed))

theorem invoke_ends {e : Ref}
    (kinds : args.map (some ·.kind) = method.descriptor.params.map JType.kind?)
    (present : isStatic = false → r ≠ .null)
    (called : env.invoke method (callWords isStatic r args) s = (.error e, s')) :
    Ends env enter [.invoke isStatic method] ⟨callStack isStatic r args stack, locals, s⟩
      (.thrown (.raised e)) s' := by
  have answered : callMethod env method (callWords isStatic r args) ⟨stack, locals, s⟩ =
      .error (.thrown (.raised e)) ⟨stack, locals, s'⟩ := by
    simp only [callMethod, called]
  exact .single ⟨stack, locals, s'⟩
    ((perform_invoke kinds present).trans (step_bind_error answered)) rfl

end Calls

theorem leave_ends {k : WordKind} {w : Word} (kind : w.kind = k) :
    Ends env enter [.leave (some k)] ⟨w :: stack, locals, s⟩ (.returned (some w)) s :=
  .single ⟨stack, locals, s⟩
    ((step_bind_ok (show popWord k ⟨w :: stack, locals, s⟩ = .ok w ⟨stack, locals, s⟩ from
      if_pos kind)).trans rfl) rfl

theorem leaveVoid_ends :
    Ends env enter [.leave none] ⟨stack, locals, s⟩ (.returned none) s :=
  .single ⟨stack, locals, s⟩ rfl rfl

end Actions

/-! ## Packing -/

/-- The boxed values in slots from `slot` on go into an array from an index on. -/
def packActions : List JType → Nat → UInt16 → List Act
  | [], _, _ => []
  | t :: ts, index, slot =>
    [.dup] ++ ([.push (.number (.int (Int32.ofNat index)))] ++ (Build.loadActions t slot ++
      (Build.boxActions t ++ ([.storeItem] ++ packActions ts (index + 1) (slot + t.slots)))))

theorem layOut_cons (w : Word) (ws : List Word) :
    layOut (w :: ws) = some w :: (List.replicate (w.slots - 1) none ++ layOut ws) := rfl

theorem layOut_append (ws ws' : List Word) : layOut (ws ++ ws') = layOut ws ++ layOut ws' :=
  List.flatMap_append

theorem length_layOut (ws : List Word) : (layOut ws).length = depth ws := by
  induction ws with
  | nil => rfl
  | cons w ws ih =>
    have some : 0 < w.slots := by
      obtain ⟨n⟩ | r := w
      · cases n <;> exact Nat.succ_pos _
      · exact Nat.succ_pos _
    rw [layOut_cons, depth_cons, List.length_cons, List.length_append, List.length_replicate, ih]
    omega

theorem depth_of_holds {ts : List JType} {ws : List Word} (h : List.Forall₂ JType.Holds ts ws) :
    depth ws = slotsOf ts := by
  refine depth_of_kinds ?_
  induction h with
  | nil => rfl
  | cons head _ ih => rw [List.map_cons, List.map_cons, ih, head.kind?]

section Packing

variable {σ : Type} {env : Env σ} {enter : Enter σ} {stack : List Word}
  {locals : List (Option Word)} {s : Shared σ} {a : Nat}

theorem Shared.set_same {c : Cell} (found : s.heap[a]? = some c) : s.set a c = s := by
  obtain ⟨inside, rfl⟩ := List.getElem?_eq_some_iff.1 found
  rw [Shared.set, List.set_getElem_self]

theorem Shared.set_set (a : Nat) (c c' : Cell) : (s.set a c).set a c' = s.set a c' := by
  simp only [Shared.set, List.set_set]

theorem Shared.getElem?_set {c c' : Cell} (found : s.heap[a]? = some c) :
    (s.set a c').heap[a]? = some c' :=
  List.getElem?_set_self (List.getElem?_eq_some_iff.1 found).1

/-- The array is filled up to an index, from which on the parameters that are left go into it. -/
theorem packActions_leads {ts : List JType} {ws : List Word} {rs : List Ref}
    (held : List.Forall₂ JType.Holds ts ws) (boxed : boxAll? ts ws = some rs) {slot : UInt16}
    {before after : List (Option Word)} (laid : locals = before ++ (layOut ws ++ after))
    (at_slot : slot.toNat = before.length) (low : before.length + slotsOf ts < 65536) {index : Nat}
    (few : index + ts.length < 2147483648) {items : List Ref}
    (found : s.heap[a]? = some (.array ClassName.object.internal items))
    (room : items.length = index + ts.length) :
    Leads env enter (packActions ts index slot) ⟨.ref (.object a) :: stack, locals, s⟩
      ⟨.ref (.object a) :: stack, locals,
        s.set a (.array ClassName.object.internal (items.take index ++ rs))⟩ := by
  induction held generalizing slot before index items rs s with
  | nil =>
    cases boxed
    have full : items.take index = items := List.take_of_length_le (by simpa using room.le)
    rw [full, List.append_nil, Shared.set_same found]
    exact .refl _
  | @cons t w ts ws head rest ih =>
    obtain ⟨r, rs', first, others, rfl⟩ := boxAll?_cons_eq_some.1 boxed
    have kind := head.kind?
    have slots := JType.toNat_slots kind
    have size : slotsOf (t :: ts) = t.slots.toNat + slotsOf ts := rfl
    rw [List.length_cons] at few room
    have inside : index < items.length := by omega
    have loaded : locals[slot.toNat]? = some (some w) := by
      rw [laid, at_slot, List.getElem?_append_right (Nat.le_refl _), Nat.sub_self]
      rfl
    refine (Leads.single rfl).trans ((Leads.single rfl).trans ((load_leads kind loaded).trans
      ((box_leads first).trans ?_)))
    refine (storeItem_leads (Int32.toInt_ofNat_of_lt (by omega)) found inside
      (env.isInstance_object _ _)).trans ?_
    have next : (slot + t.slots).toNat = slot.toNat + t.slots.toNat := by
      rw [UInt16.toNat_add]
      omega
    have laid' : locals = (before ++ some w :: List.replicate (w.slots - 1) none) ++
        (layOut ws ++ after) := by
      rw [laid, layOut_cons]
      simp
    have taken : (before ++ some w :: List.replicate (w.slots - 1) none).length =
        before.length + t.slots.toNat := by
      have laid_out := length_layOut [w]
      simp only [layOut_cons, List.length_append, List.length_cons, depth_cons, Word.slots,
        ← slots] at laid_out ⊢
      simpa [layOut] using laid_out
    have filled : (items.set index r).take (index + 1) = items.take index ++ [r] := by
      rw [List.take_add_one, List.getElem?_set_self inside, List.take_set_of_le (Nat.le_refl _)]
      rfl
    have room' : (items.set index r).length = index + 1 + ts.length :=
      List.length_set.trans (by omega)
    have behind := ih others laid' (next.trans (by omega)) (by omega) (by omega)
      (Shared.getElem?_set found) room'
    rw [Shared.set_set, filled, List.append_assoc] at behind
    exact behind

/-- What packs values of the types from slots on into an array of their own. -/
def packAllActions (ts : List JType) (slot : UInt16) : List Act :=
  [.push (.number (.int (Int32.ofNat ts.length)))] ++
    ([.makeArray ClassName.object.internal] ++ packActions ts 0 slot)

theorem packAllActions_leads {ts : List JType} {ws : List Word} {rs : List Ref}
    (held : List.Forall₂ JType.Holds ts ws) (boxed : boxAll? ts ws = some rs) {slot : UInt16}
    {before : List (Option Word)} (laid : locals = before ++ layOut ws)
    (at_slot : slot.toNat = before.length) (low : before.length + slotsOf ts < 65536)
    (few : ts.length < 2147483648) : Leads env enter (packAllActions ts slot) ⟨stack, locals, s⟩
      ⟨.ref (.object s.heap.length) :: stack, locals,
        { s with heap := s.heap ++ [.array ClassName.object.internal rs] }⟩ := by
  have laid : locals = before ++ (layOut ws ++ []) := by rw [laid, List.append_nil]
  have filled : Leads env enter (packActions ts 0 slot)
      ⟨.ref (.object s.heap.length) :: stack, locals,
        { s with heap := s.heap ++
          [.array ClassName.object.internal (List.replicate ts.length .null)] }⟩ _ :=
    packActions_leads held boxed laid at_slot low (by omega) List.getElem?_concat_length (by simp)
  simp only [List.take_zero, List.nil_append, Shared.set, List.set_append_right _ _ (Nat.le_refl _),
    Nat.sub_self, List.set_cons_zero] at filled
  exact (Leads.single rfl).trans
    ((makeArray_leads (Int32.toInt_ofNat_of_lt few)).trans filled)

end Packing

/-! ## Unpacking -/

/-- The objects of the array in a slot go on the stack, from an index on, as values of the types. -/
def unpackActions (array : UInt16) : List JType → Nat → List Act
  | [], _ => []
  | t :: ts, index =>
    Build.loadActions .object array ++ ([.push (.number (.int (Int32.ofNat index)))] ++ ([.loadItem] ++
      (Build.unboxActions t ++ unpackActions array ts (index + 1))))

section Unpacking

variable {σ : Type} {env : Env σ} {enter : Enter σ} {stack : List Word}
  {locals : List (Option Word)} {s : Shared σ} {a : Nat} {array : UInt16} {element : String}
  {items : List Ref}

theorem drop_eq_cons {index : Nat} {r : Ref} {rs : List Ref} (h : items.drop index = r :: rs) :
    items[index]? = some r ∧ items.drop (index + 1) = rs := by
  constructor
  · rw [← List.head?_drop, h]
    rfl
  · rw [← List.tail_drop, h]
    rfl

/-- Up to an index the arguments are on the stack; the others follow. -/
theorem unpackActions_leads {ts : List JType} {ws : List Word} {index : Nat}
    (loaded : locals[array.toNat]? = some (some (.ref (.object a))))
    (found : s.heap[a]? = some (.array element items))
    (few : index + ts.length < 2147483648)
    (h : env.unboxAll s.heap ts (items.drop index) = .ok ws) :
    Leads env enter (unpackActions array ts index) ⟨stack, locals, s⟩
      ⟨ws.reverse ++ stack, locals, s⟩ := by
  induction ts generalizing index ws stack with
  | nil =>
    cases h
    exact .refl _
  | cons t ts ih =>
    rw [List.length_cons] at few
    obtain ⟨r, rs, w, ws, left, first, rest, rfl⟩ := unboxAll_cons_eq_ok h
    obtain ⟨at_index, others⟩ := drop_eq_cons left
    rw [← others] at rest
    refine (load_leads rfl loaded).trans ((Leads.single rfl).trans ((loadItem_leads
      (Int32.toInt_ofNat_of_lt (by omega)) found at_index).trans ((unbox_leads first).trans ?_)))
    rw [List.reverse_cons, List.append_assoc]
    exact ih (by omega) rest

/-- Unpacking ends at the first object that is no value of its type. -/
theorem unpackActions_ends {ts : List JType} {e : Fault} {index : Nat}
    (values : ∀ t ∈ ts, t.isVoid = false)
    (loaded : locals[array.toNat]? = some (some (.ref (.object a))))
    (found : s.heap[a]? = some (.array element items))
    (few : index + ts.length < 2147483648)
    (h : env.unboxAll s.heap ts (items.drop index) = .error e) :
    Ends env enter (unpackActions array ts index) ⟨stack, locals, s⟩ (.thrown e) s := by
  induction ts generalizing index stack with
  | nil => cases h
  | cons t ts ih =>
    rw [List.length_cons] at few
    have at_index : (Int32.ofNat index).toInt = index := Int32.toInt_ofNat_of_lt (by omega)
    refine (load_leads rfl loaded).ends ((Leads.single rfl).ends ?_)
    cases left : items.drop index with
    | nil =>
      rw [left] at h
      cases h
      exact (loadItem_ends at_index found (List.drop_eq_nil_iff.1 left)).append _
    | cons r rs =>
      obtain ⟨item, others⟩ := drop_eq_cons left
      rw [left, Env.unboxAll] at h
      refine (loadItem_leads at_index found item).ends ?_
      cases first : env.unbox s.heap t r with
      | error e' =>
        rw [first] at h
        cases h
        exact (unbox_ends (values t List.mem_cons_self) first).append _
      | ok w =>
        rw [first, ← others] at h
        refine (unbox_leads first).ends (ih (fun t mem => values t (List.mem_cons_of_mem _ mem))
          (by omega) ?_)
        cases rest : env.unboxAll s.heap ts (items.drop (index + 1)) with
        | error e' =>
          rw [rest] at h
          cases h
          rfl
        | ok ws =>
          rw [rest] at h
          cases h

end Unpacking

/-! ## Depths -/

section Depths

variable {t : JType} {ts : List JType}

theorem loadActions_spans (value : t.isVoid = false) (slot : UInt16) :
    Spans (Build.loadActions t slot) 0 t.slots.toNat t.slots.toNat := by
  cases kind : t.kind? with
  | none =>
    obtain rfl := JType.eq_void_of_kind? kind
    cases value
  | some k =>
    rw [Build.loadActions, kind, JType.toNat_slots kind]
    exact .single (a := .load k slot.toNat) (Nat.zero_add _) (Nat.le_refl _)

theorem slots_pos (value : t.isVoid = false) : 1 ≤ t.slots.toNat ∧ t.slots.toNat ≤ 2 := by
  cases t with
  | void => cases value
  | primitive p => cases p <;> decide
  | _ => exact ⟨Nat.le_refl 1, Nat.le_succ 1⟩

theorem boxActions_spans (value : t.isVoid = false) :
    Spans (Build.boxActions t) t.slots.toNat 1 1 := by
  cases t with
  | void => cases value
  | primitive p =>
    exact .single (a := .box p) (by rw [JType.slots, p.toNat_slots]; exact Nat.add_comm _ _)
      (Nat.le_refl _)
  | _ => exact .refl 1 1

theorem castActions_spans (t : JType) (top : Nat) (some : 1 ≤ top) :
    Spans (Build.castActions t) 1 1 top := by
  unfold Build.castActions
  split
  · exact .refl 1 top
  · cases t.classOperand? with
    | none => exact .refl 1 top
    | some name => exact .single (a := .cast name) rfl some

theorem unboxActions_spans (value : t.isVoid = false) :
    Spans (Build.unboxActions t) 1 t.slots.toNat 2 := by
  have slots := slots_pos value
  cases t with
  | void => cases value
  | primitive p =>
    refine (Spans.single (a := .cast p.boxed.internal) (q := 1) rfl (by decide)).trans
      (Spans.single (a := .unbox p) ?_ slots.2)
    rw [JType.slots, p.toNat_slots]
    exact Nat.add_comm _ _
  | _ => exact castActions_spans _ 2 (by decide)

/-- One parameter after the other is put above the array and goes into it. -/
theorem packActions_spans (values : ∀ t ∈ ts, t.isVoid = false) (index : Nat) (slot : UInt16) :
    Spans (packActions ts index slot) 1 1 5 := by
  induction ts generalizing index slot with
  | nil => exact .refl 1 5
  | cons t ts ih =>
    have value := values t List.mem_cons_self
    have slots := slots_pos value
    refine (Spans.single (a := .dup) (q := 2) rfl (by decide)).trans ((Spans.single (q := 3)
      (by rfl) (by decide)).trans (Spans.trans (q := t.slots.toNat + 3) ?_
        (Spans.trans (q := 4) ?_ ((Spans.single (a := .storeItem) (q := 1) rfl (by decide)).trans
          (ih (fun t mem => values t (List.mem_cons_of_mem _ mem)) _ _)))))
    · have loaded := (loadActions_spans value slot).above 3
      rw [Nat.zero_add] at loaded
      exact loaded.mono (by omega)
    · exact ((boxActions_spans value).above 3).mono (by decide)

theorem packAllActions_spans (values : ∀ t ∈ ts, t.isVoid = false) (slot : UInt16) :
    Spans (packAllActions ts slot) 0 1 5 :=
  (Spans.single (q := 1) (by rfl) (by decide)).trans
    ((Spans.single (a := .makeArray _) (q := 1) rfl (by decide)).trans
      (packActions_spans values 0 slot))

/-- Types of values take one slot or two. -/
theorem length_le_slotsOf (values : ∀ t ∈ ts, t.isVoid = false) :
    ts.length ≤ slotsOf ts ∧ slotsOf ts ≤ 2 * ts.length := by
  induction ts with
  | nil => exact ⟨Nat.le_refl 0, Nat.le_refl 0⟩
  | cons t ts ih =>
    have slots := slots_pos (values t List.mem_cons_self)
    have rest := ih fun t mem => values t (List.mem_cons_of_mem _ mem)
    simp only [List.length_cons, slotsOf]
    omega

theorem length_loadActions (value : t.isVoid = false) (slot : UInt16) :
    (Build.loadActions t slot).length = 1 := by
  cases kind : t.kind? with
  | none =>
    obtain rfl := JType.eq_void_of_kind? kind
    cases value
  | some k => rw [Build.loadActions, kind, Option.map_some, Option.toList_some, List.length_singleton]

/-- Packing takes at least four actions for each parameter. -/
theorem length_le_packActions (values : ∀ t ∈ ts, t.isVoid = false) (index : Nat) (slot : UInt16) :
    4 * ts.length ≤ (packActions ts index slot).length := by
  induction ts generalizing index slot with
  | nil => exact Nat.le_refl 0
  | cons t ts ih =>
    have rest := ih (fun t mem => values t (List.mem_cons_of_mem _ mem)) (index + 1) (slot + t.slots)
    have loaded := length_loadActions (values t List.mem_cons_self) slot
    simp only [packActions, List.length_append, List.length_cons, List.length_nil]
    omega

/-- Each object that is taken out of the array leaves a value behind. -/
theorem unpackActions_spans (values : ∀ t ∈ ts, t.isVoid = false) (array : UInt16) (index : Nat) :
    Spans (unpackActions array ts index) 0 (slotsOf ts) (slotsOf ts + 2) := by
  induction ts generalizing index with
  | nil => exact .refl 0 2
  | cons t ts ih =>
    have value := values t List.mem_cons_self
    have slots := slots_pos value
    have size : slotsOf (t :: ts) = slotsOf ts + t.slots.toNat := Nat.add_comm _ _
    have rest := (ih (fun t mem => values t (List.mem_cons_of_mem _ mem)) (index + 1)).above
      t.slots.toNat
    rw [Nat.zero_add, ← size] at rest
    refine Spans.trans (q := 1) ?_ ((Spans.single (q := 2) (by rfl) (by omega)).trans
      ((Spans.single (a := .loadItem) (q := 1) rfl (by omega)).trans
        (Spans.trans ((unboxActions_spans value).mono (by omega)) (rest.mono (by omega)))))
    exact (loadActions_spans (t := .object) rfl array).mono (show 1 ≤ _ by omega)

end Depths

end Machine

/-! ## What is built -/

namespace Build

variable {σ : Type} {env : Machine.Env σ}

theorem performs_packEach (ts : List JType) (index : Nat) (slot : UInt16) :
    Performs env (packEach ts index slot) (Machine.packActions ts index slot) := by
  induction ts generalizing index slot with
  | nil => exact .pure
  | cons t ts ih =>
    exact performs_dup.bind ((performs_pushInt _).bind ((performs_load t slot).bind
      ((performs_box t).bind (performs_arrayStore.bind (ih _ _)))))

theorem performs_unpackEach (array : UInt16) (ts : List JType) (index : Nat) :
    Performs env (unpackEach array ts index) (Machine.unpackActions array ts index) := by
  induction ts generalizing index with
  | nil => exact .pure
  | cons t ts ih =>
    exact (performs_load .object array).bind ((performs_pushInt _).bind
      (performs_arrayLoad.bind ((performs_unbox t).bind (ih _))))

theorem performs_packArguments (d : MethodDescriptor) (slot : UInt16) :
    Performs env (packArguments d slot) (Machine.packAllActions d.params slot) :=
  (performs_pushInt _).bind (performs_newObjectArray.bind (performs_packEach _ _ _))

end Build

end Weft
