import Weft.Proofs.Machine.Basic
import Weft.Proofs.Steps

/-!
# The depth of the stack

Every action takes certain slots off the stack and puts certain slots on it, so that the depths that
code goes through are known before it runs. Code whose depths stay within the room that its body
declares runs as on a stack without bounds.
-/

namespace Weft.Machine

/-- The slots of values of the types. -/
def slotsOf : List JType → Nat
  | [] => 0
  | t :: ts => t.slots.toNat + slotsOf ts

namespace Act

/-- The slots that the action takes off the stack. -/
def pops : Act → Nat
  | push _ | load .. | make _ => 0
  | dup | pop | makeArray _ | cast _ | getField _ | unbox _ => 1
  | loadItem => 2
  | storeItem => 3
  | putField f => f.kind.slots + 1
  | box p => p.kind.slots
  | construct c => slotsOf c.params + 1
  | invoke isStatic m => slotsOf m.descriptor.params + if isStatic then 0 else 1
  | leave kind? => (kind?.map WordKind.slots).getD 0

/-- The slots that the action puts on the stack. -/
def pushes : Act → Nat
  | push w => w.slots
  | load kind _ => kind.slots
  | make _ | makeArray _ | loadItem | cast _ | box _ => 1
  | dup => 2
  | pop | storeItem | putField _ | construct _ | leave _ => 0
  | getField f => f.kind.slots
  | unbox p => p.kind.slots
  | invoke _ m => m.descriptor.ret.slots.toNat

end Act

section Depth

variable {σ α β : Type} {m m' : State σ}

@[simp]
theorem depth_nil : depth [] = 0 := rfl

@[simp]
theorem depth_cons (w : Word) (stack : List Word) : depth (w :: stack) = w.slots + depth stack :=
  rfl

@[simp]
theorem depth_append (ws stack : List Word) : depth (ws ++ stack) = depth ws + depth stack := by
  induction ws with
  | nil => exact (Nat.zero_add _).symm
  | cons w ws ih => rw [List.cons_append, depth_cons, depth_cons, ih, Nat.add_assoc]

@[simp]
theorem depth_reverse (ws : List Word) : depth ws.reverse = depth ws := by
  induction ws with
  | nil => rfl
  | cons w ws ih =>
    rw [List.reverse_cons, depth_append, ih, depth_cons, depth_cons, depth_nil]
    omega

/-- Words of the kinds of the types take the slots of the types. -/
theorem depth_of_kinds {ws : List Word} {ts : List JType}
    (kinds : ws.map (some ·.kind) = ts.map JType.kind?) : depth ws = slotsOf ts := by
  induction ws generalizing ts with
  | nil =>
    cases ts with
    | nil => rfl
    | cons t ts => cases kinds
  | cons w ws ih =>
    cases ts with
    | nil => cases kinds
    | cons t ts =>
      simp only [List.map_cons, List.cons.injEq] at kinds
      have rest := ih kinds.2
      have first := JType.toNat_slots kinds.1.symm
      rw [depth_cons, slotsOf, rest, first, Word.slots]

/-- What the step does to the depth of the stack when it goes on. -/
def Shifts (x : Run σ α) (pops pushes : Nat) : Prop :=
  ∀ m a m', x m = .ok a m' → depth m'.stack + pops = depth m.stack + pushes

namespace Shifts

theorem pure (a : α) : Shifts (Pure.pure a : Run σ α) 0 0 := by
  intro m a' m' h
  cases h
  rfl

theorem fail (e : Exit) {pops pushes : Nat} : Shifts (throw e : Run σ α) pops pushes := by
  intro m a m' h
  cases h

/-- What follows a step may build on what it answers. -/
theorem bind_of {x : Run σ α} {f : α → Run σ β} {P : α → Prop} {pops pushes pops' pushes' : Nat}
    (hx : Shifts x pops pushes) (answers : ∀ {m a m'}, x m = .ok a m' → P a)
    (hf : ∀ a, P a → Shifts (f a) pops' pushes') :
    Shifts (x >>= f) (pops + pops') (pushes + pushes') := by
  intro m b m'' h
  obtain ⟨a, m', first, second⟩ := step_bind_eq_ok.1 h
  have := hx m a m' first
  have := hf a (answers first) m' b m'' second
  omega

theorem bind {x : Run σ α} {f : α → Run σ β} {pops pushes pops' pushes' : Nat}
    (hx : Shifts x pops pushes) (hf : ∀ a, Shifts (f a) pops' pushes') :
    Shifts (x >>= f) (pops + pops') (pushes + pushes') :=
  hx.bind_of (fun _ => trivial) fun a _ => hf a

theorem ite {c : Prop} [Decidable c] {x y : Run σ α} {pops pushes : Nat}
    (hx : Shifts x pops pushes) (hy : Shifts y pops pushes) :
    Shifts (if c then x else y) pops pushes := by
  split <;> assumption

end Shifts

theorem push_shifts (w : Word) : Shifts (push w : Run σ Unit) 0 w.slots := by
  intro m a m' h
  cases h
  simp [Nat.add_comm]

theorem push_shifts_of {w : Word} {n : Nat} (slots : w.slots = n) :
    Shifts (push w : Run σ Unit) 0 n := slots ▸ push_shifts w

theorem pushRef_shifts (r : Ref) : Shifts (push (.ref r) : Run σ Unit) 0 1 := push_shifts (.ref r)

theorem popWord_eq_ok {kind : WordKind} {w : Word} (h : popWord kind m = .ok w m') :
    w.kind = kind ∧ m.stack = w :: m'.stack := by
  unfold popWord at h
  split at h
  · split at h
    · rename_i same
      cases h
      exact ⟨same, by assumption⟩
    · cases h
  · cases h

theorem popWord_shifts (kind : WordKind) : Shifts (popWord kind : Run σ Word) kind.slots 0 := by
  intro m w m' h
  obtain ⟨rfl, stack⟩ := popWord_eq_ok h
  rw [stack, depth_cons, Word.slots]
  omega

theorem popRef_shifts : Shifts (popRef : Run σ Ref) 1 0 := by
  intro m r m' h
  unfold popRef at h
  split at h
  · rename_i stack
    cases h
    rw [stack, depth_cons]
    exact Nat.add_comm _ _
  · cases h

theorem popInt_shifts : Shifts (popInt : Run σ Int32) 1 0 := by
  intro m r m' h
  unfold popInt at h
  split at h
  · rename_i stack
    cases h
    rw [stack, depth_cons]
    exact Nat.add_comm _ _
  · cases h

theorem popSingle_eq_ok {w : Word} (h : popSingle m = .ok w m') :
    w.slots = 1 ∧ m.stack = w :: m'.stack := by
  unfold popSingle at h
  split at h
  · split at h
    · rename_i single
      cases h
      exact ⟨single, by assumption⟩
    · cases h
  · cases h

theorem popSingle_shifts : Shifts (popSingle : Run σ Word) 1 0 := by
  intro m w m' h
  obtain ⟨single, stack⟩ := popSingle_eq_ok h
  rw [stack, depth_cons, single]
  exact Nat.add_comm _ _

theorem popArguments_shifts (params : List JType) :
    Shifts (popArguments params : Run σ (List Word)) (slotsOf params) 0 := by
  intro m args m' h
  unfold popArguments at h
  dsimp only at h
  split at h
  · rename_i kinds
    cases h
    have parts := congrArg depth (List.take_append_drop params.length m.stack)
    have taken := depth_of_kinds kinds
    rw [depth_append] at parts
    rw [depth_reverse] at taken
    show depth (m.stack.drop params.length) + slotsOf params = _
    omega
  · cases h

/-- A step that leaves the stack alone. -/
theorem shifts_of_stack {x : Run σ α} (same : ∀ m a m', x m = .ok a m' → m'.stack = m.stack) :
    Shifts x 0 0 := by
  intro m a m' h
  rw [same m a m' h]

theorem cellAt_shifts (r : Ref) : Shifts (cellAt r : Run σ _) 0 0 := by
  refine shifts_of_stack fun m a m' h => ?_
  unfold cellAt at h
  split at h
  · cases h
  · split at h <;> cases h
    rfl
  · cases h

theorem arrayAt_shifts (r : Ref) : Shifts (arrayAt r : Run σ _) 0 0 := by
  show Shifts (cellAt r >>= _) (0 + 0) (0 + 0)
  refine (cellAt_shifts r).bind fun found => ?_
  obtain ⟨a, _ | _⟩ := found
  · exact .pure _
  · exact .fail _

theorem objectAt_shifts (r : Ref) : Shifts (objectAt r : Run σ _) 0 0 := by
  show Shifts (cellAt r >>= _) (0 + 0) (0 + 0)
  refine (cellAt_shifts r).bind fun found => ?_
  obtain ⟨a, _ | _⟩ := found
  · exact .fail _
  · exact .pure _

theorem checkIndex_shifts (v : Int32) (length : Nat) :
    Shifts (checkIndex v length : Run σ Nat) 0 0 := .ite (.pure _) (.fail _)

theorem require_shifts (c : Bool) (e : Exit) : Shifts (require c e : Run σ Unit) 0 0 :=
  .ite (.pure _) (.fail _)

theorem isInstance_shifts (env : Env σ) (r : Ref) (className : String) :
    Shifts (isInstance env r className) 0 0 := by
  refine shifts_of_stack fun m a m' h => ?_
  cases h
  rfl

theorem setCell_shifts (a : Nat) (c : Cell) : Shifts (setCell a c : Run σ Unit) 0 0 := by
  refine shifts_of_stack fun m a m' h => ?_
  cases h
  rfl

theorem allocate_shifts (c : Cell) : Shifts (allocate c : Run σ Unit) 0 1 := by
  intro m a m' h
  cases h
  exact Nat.add_comm 1 _

theorem callMethod_shifts (env : Env σ) (method : Method) (args : List Word) :
    Shifts (callMethod env method args) 0 0 := by
  refine shifts_of_stack fun m a m' h => ?_
  unfold callMethod at h
  split at h <;> cases h
  rfl

theorem callConstructor_shifts (enter : Enter σ) (c : Constructor) (args : List Word) :
    Shifts (callConstructor enter c args) 0 0 := by
  refine shifts_of_stack fun m a m' h => ?_
  unfold callConstructor at h
  split at h <;> cases h
  rfl

theorem require_eq_ok {c : Bool} {e : Exit} (h : require c e m = .ok () m') : c = true ∧ m' = m := by
  unfold require at h
  split at h
  · cases h
    exact ⟨by assumption, rfl⟩
  · cases h

/-- A word that is pushed under a condition. -/
theorem requirePush_shifts {c : Bool} {e : Exit} {w : Word} {n : Nat}
    (slots : c = true → w.slots = n) :
    Shifts (do
      require c e
      push w : Run σ Unit) 0 n := by
  have shifts := (require_shifts c e).bind_of (σ := σ) (f := fun _ => push w)
    (fun h => (require_eq_ok h).1) fun _ checked => push_shifts_of (slots checked)
  rwa [Nat.zero_add n] at shifts

theorem pushAnswer_shifts (t : JType) (answer : Option Word) :
    Shifts (pushAnswer t answer : Run σ Unit) 0 t.slots.toNat := by
  cases answer with
  | none =>
    intro m a m' h
    obtain ⟨void, rfl⟩ := require_eq_ok h
    cases t with
    | void => rfl
    | _ => cases void
  | some w =>
    exact requirePush_shifts fun kind => (JType.toNat_slots (of_decide_eq_true kind)).symm

theorem openBox_shifts (p : Primitive) (r : Ref) : Shifts (openBox p r : Run σ Number) 0 0 := by
  cases r with
  | box b => exact .ite (.pure _) (.fail _)
  | _ => exact .fail _

theorem openBox_eq_ok {p : Primitive} {r : Ref} {n : Number} (h : openBox p r m = .ok n m') :
    n.kind = p.kind := by
  cases r with
  | box b =>
    by_cases same : b.type = p
    · simp only [openBox, if_pos same] at h
      cases h
      rw [b.kind_number, same]
    · simp only [openBox, if_neg same] at h
      cases h
  | _ => cases h

/-- What an action does to the depth of the stack. -/
theorem perform_shifts (env : Env σ) (enter : Enter σ) (a : Act) :
    Shifts (perform env enter a) a.pops a.pushes := by
  cases a with
  | push w => exact push_shifts w
  | load kind slot =>
    intro m a m' h
    simp only [perform] at h
    split at h
    · split at h
      · rename_i w _ same
        cases same
        exact push_shifts w _ _ _ h
      · cases h
    · cases h
  | dup =>
    exact popSingle_shifts.bind_of (fun h => (popSingle_eq_ok h).1) fun w single =>
      (push_shifts_of single).bind fun _ => push_shifts_of single
  | pop => exact popSingle_shifts.bind fun _ => .pure _
  | make className => exact allocate_shifts _
  | makeArray element =>
    exact popInt_shifts.bind fun _ => (require_shifts _ _).bind fun _ => allocate_shifts _
  | storeItem =>
    exact popRef_shifts.bind fun _ => popInt_shifts.bind fun _ => popRef_shifts.bind fun _ =>
      (arrayAt_shifts _).bind fun _ => (checkIndex_shifts _ _).bind fun _ =>
        (isInstance_shifts _ _ _).bind fun _ => (require_shifts _ _).bind fun _ => setCell_shifts _ _
  | loadItem =>
    exact popInt_shifts.bind fun _ => popRef_shifts.bind fun _ => (arrayAt_shifts _).bind fun _ =>
      (checkIndex_shifts _ _).bind fun _ => pushRef_shifts _
  | cast className =>
    exact popRef_shifts.bind fun _ => (isInstance_shifts _ _ _).bind fun _ =>
      (require_shifts _ _).bind fun _ => pushRef_shifts _
  | getField f =>
    have shifts : Shifts (perform env enter (.getField f)) (1 + (0 + 0))
        (0 + (0 + f.kind.slots)) := by
      refine popRef_shifts.bind fun r => (objectAt_shifts r).bind fun (a, className, fields) => ?_
      dsimp only
      split
      · exact requirePush_shifts fun kind => congrArg WordKind.slots (of_decide_eq_true kind)
      · exact .fail _
    simpa [Act.pops, Act.pushes] using shifts
  | putField f =>
    exact (popWord_shifts f.kind).bind fun _ => popRef_shifts.bind fun _ =>
      (objectAt_shifts _).bind fun _ => setCell_shifts _ _
  | box p =>
    show Shifts (popWord p.kind >>= _) (p.kind.slots + 0) (0 + 1)
    refine (popWord_shifts p.kind).bind fun w => ?_
    cases w with
    | ref r => exact .fail _
    | number n =>
      dsimp only
      split
      · exact push_shifts _
      · exact .fail _
  | unbox p =>
    have shifts : Shifts (perform env enter (.unbox p)) (1 + (0 + 0)) (0 + (0 + p.kind.slots)) :=
      popRef_shifts.bind fun r => (openBox_shifts p r).bind_of openBox_eq_ok fun _ kind =>
        push_shifts_of (congrArg WordKind.slots kind)
    simpa [Act.pops, Act.pushes] using shifts
  | construct c =>
    exact (popArguments_shifts c.params).bind fun _ => popRef_shifts.bind fun _ =>
      callConstructor_shifts _ _ _
  | invoke isStatic method =>
    have shifts : Shifts (perform env enter (.invoke isStatic method))
        (slotsOf method.descriptor.params + if isStatic then 0 else 1)
        (0 + method.descriptor.ret.slots.toNat) := by
      refine (popArguments_shifts _).bind fun _ => ?_
      cases isStatic with
      | true => simpa using (callMethod_shifts _ _ _).bind fun _ => pushAnswer_shifts _ _
      | false =>
        simpa using popRef_shifts.bind fun _ => (require_shifts _ _).bind fun _ =>
          (callMethod_shifts _ _ _).bind fun _ => pushAnswer_shifts _ _
    simpa [Act.pops, Act.pushes] using shifts
  | leave kind? =>
    cases kind? with
    | none => exact .fail _
    | some kind =>
      intro m a m' h
      obtain ⟨w, m₁, -, h⟩ := step_bind_eq_ok.1 h
      cases h

end Depth

/-! ## Code within its room -/

/-- The depth behind an action. -/
def Act.after (a : Act) (n : Nat) : Nat := n + a.pushes - a.pops

/-- The depth behind actions, from a depth on. -/
def height : Nat → List Act → Nat
  | n, [] => n
  | n, a :: as => height (a.after n) as

/-- The depths behind each of some actions, from a depth on. -/
def heights : Nat → List Act → List Nat
  | _, [] => []
  | n, a :: as => a.after n :: heights (a.after n) as

theorem height_append (n : Nat) (as bs : List Act) :
    height n (as ++ bs) = height (height n as) bs := by
  induction as generalizing n with
  | nil => rfl
  | cons a as ih => exact ih (a.after n)

theorem heights_append (n : Nat) (as bs : List Act) :
    heights n (as ++ bs) = heights n as ++ heights (height n as) bs := by
  induction as generalizing n with
  | nil => rfl
  | cons a as ih => exact congrArg (a.after n :: ·) (ih (a.after n))

/-- The actions lead from `p` slots above any base to `q`, and never beyond `top`. -/
def Spans (as : List Act) (p q top : Nat) : Prop :=
  ∀ n, height (n + p) as = n + q ∧ ∀ h ∈ heights (n + p) as, h ≤ n + top

namespace Spans

variable {as bs : List Act} {p q r top : Nat}

theorem refl (p top : Nat) : Spans [] p p top := fun _ => ⟨rfl, fun _ mem => nomatch mem⟩

theorem single {a : Act} (moves : p + a.pushes = q + a.pops) (low : q ≤ top) :
    Spans [a] p q top := by
  intro n
  have behind : a.after (n + p) = n + q := by
    rw [Act.after]
    omega
  refine ⟨behind, fun h mem => ?_⟩
  rw [List.mem_singleton.1 mem, behind]
  omega

theorem trans (h : Spans as p q top) (h' : Spans bs q r top) : Spans (as ++ bs) p r top := by
  intro n
  rw [height_append, heights_append, (h n).1]
  refine ⟨(h' n).1, fun k mem => ?_⟩
  rcases List.mem_append.1 mem with mem | mem
  · exact (h n).2 k mem
  · exact (h' n).2 k mem

theorem mono {top' : Nat} (h : Spans as p q top) (le : top ≤ top') : Spans as p q top' :=
  fun n => ⟨(h n).1, fun k mem => Nat.le_trans ((h n).2 k mem) (by omega)⟩

theorem above (h : Spans as p q top) (k : Nat) : Spans as (p + k) (q + k) (top + k) := by
  intro n
  have shifted := h (n + k)
  rw [show n + (p + k) = n + k + p by omega]
  exact ⟨by omega, fun j mem => Nat.le_trans (shifted.2 j mem) (by omega)⟩

theorem low (h : Spans as 0 q top) (few : top < 65536) : ∀ n ∈ heights 0 as, n < 65536 := by
  intro n mem
  have bound := (h 0).2 n mem
  omega

end Spans

section Room

variable {σ : Type} {env : Env σ} {enter : Enter σ}

theorem forM_cons {α : Type} (f : α → Run σ PUnit) (a : α) (as : List α) :
    (a :: as).forM f = f a >>= fun _ => as.forM f := rfl

/-- Code that stays within its room does not notice the bound. -/
theorem forM_step {room : Nat} {as : List Act} {m : State σ}
    (low : ∀ n ∈ heights (depth m.stack) as, n ≤ room) :
    as.forM (step env enter room) m = as.forM (perform env enter) m := by
  induction as generalizing m with
  | nil => rfl
  | cons a as ih =>
    rw [forM_cons, forM_cons]
    cases done : perform env enter a m with
    | error e m' =>
      have stepped : step env enter room a m = .error e m' := step_bind_error done
      rw [step_bind_error done, step_bind_error stepped]
    | ok u m' =>
      have shifted := perform_shifts env enter a m u m' done
      have behind : depth m'.stack = a.after (depth m.stack) := by
        rw [Act.after]
        omega
      have fits : depth m'.stack ≤ room := behind ▸ low _ List.mem_cons_self
      have stepped : step env enter room a m = .ok () m' := by
        rw [step, step_bind_ok done, checkRoom, if_pos fits]
      rw [step_bind_ok done, step_bind_ok stepped]
      exact ih fun n mem => low n (List.mem_cons_of_mem _ (behind ▸ mem))

/-- Code does what the actions of its instructions do. -/
theorem forM_execute {room : Nat} {p : Pool} {code : List Instruction} {as : List Act}
    (resolved : List.Forall₂ (fun i a => env.resolve p i = some a) code as) (m : State σ) :
    code.forM (execute env enter room p) m = as.forM (step env enter room) m := by
  induction resolved generalizing m with
  | nil => rfl
  | @cons i a code as first _ ih =>
    rw [forM_cons, forM_cons]
    have same : execute env enter room p i = step env enter room a := by rw [execute, first]
    rw [same]
    cases done : step env enter room a m with
    | error e m' => rw [step_bind_error done, step_bind_error done]
    | ok u m' =>
      rw [step_bind_ok done, step_bind_ok done]
      exact ih m'

/-- What a body does whose actions are known and whose depths it has declared. -/
theorem runBody_eq {p : Pool} {b : Body} {as : List Act} {words : List Word} {s : Shared σ}
    {e : Exit} {m : State σ}
    (resolved : List.Forall₂ (fun i a => env.resolve p i = some a) b.instructions as)
    (low : ∀ n ∈ heights 0 as, n ≤ b.maxStack.toNat)
    (fits : (layOut words).length ≤ b.maxLocals.toNat)
    (ran : as.forM (perform env enter) ⟨[], layOut words, s⟩ = .error e m) :
    runBody env enter p b words s = (e, m.shared) := by
  have bounded : as.forM (step env enter b.maxStack.toNat) ⟨[], layOut words, s⟩ = .error e m :=
    Eq.trans (forM_step low) ran
  rw [runBody, if_pos fits, forM_execute resolved, bounded]

end Room

end Weft.Machine
