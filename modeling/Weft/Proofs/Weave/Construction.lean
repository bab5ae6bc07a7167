import Mathlib.Data.Fintype.Card
import Mathlib.Data.Set.Finite.List
import Weft.Proofs.Weave.Evaluation

/-!
# How constructors run

A constructor without branches runs its instructions in order: first those in front of the call that
initializes its object, where each new object is completed by a constructor call of its own, then
that call, and then the others until one leaves the method. A call of another constructor of the
class stands for the run of that constructor. Where these delegations end, each constructor has one
run, in which the constructor of the superclass is called at one place.
-/

namespace Weft

variable {p q : Pool} {owner : ClassName} {is js : List Instruction} {i : Instruction}

/-- The instruction leaves its method. -/
def Instruction.leaves (i : Instruction) : Bool := i.opcode.isReturn || i.opcode == .athrow

theorem Member.body?_mono {m : Member} {b : Body} (h : m.body? p = some b)
    (grown : p.Extends q) : m.body? q = some b := by
  obtain ⟨code, coded, read⟩ := Option.bind_eq_some_iff.1 h
  exact Member.body?_eq_some coded (Weave.ofCode_mono (except_toOption_eq_some.1 read) grown)

namespace Weave

/-! ## Balanced code -/

/-- The instruction calls the constructor. -/
structure CallsConstructor (p : Pool) (i : Instruction) (m : MemberRef) : Prop where
  calls : specialCall? p i = .ok (some m)
  named : m.name = "<init>"

/-- The instruction makes no object and calls no constructor, and the next one follows it. -/
structure IsPlain (p : Pool) (i : Instruction) : Prop where
  makes_none : i.opcode ≠ .newObject
  calls_none : ∃ m?, specialCall? p i = .ok m? ∧ ∀ m ∈ m?, m.name ≠ "<init>"
  stays : i.leaves = false

/-- Code in which each new object is completed by a constructor call of its own. -/
inductive Balanced (p : Pool) : List Instruction → Prop where
  | nil : Balanced p []
  | plain {i : Instruction} {is : List Instruction} (first : IsPlain p i) (rest : Balanced p is) :
    Balanced p (i :: is)
  | object {i j : Instruction} {is js : List Instruction} {m : MemberRef}
    (makes : i.opcode = .newObject) (inside : Balanced p is) (completes : CallsConstructor p j m)
    (rest : Balanced p js) : Balanced p (i :: is ++ j :: js)

theorem CallsConstructor.mono {m : MemberRef} (h : CallsConstructor p i m) (grown : p.Extends q) :
    CallsConstructor q i m := ⟨specialCall?_mono h.calls grown, h.named⟩

theorem Balanced.mono (h : Balanced p is) (grown : p.Extends q) : Balanced q is := by
  induction h with
  | nil => exact .nil
  | plain first _ ih =>
    obtain ⟨m?, calls, other⟩ := first.calls_none
    exact .plain ⟨first.makes_none, ⟨m?, specialCall?_mono calls grown, other⟩, first.stays⟩ ih
  | object makes _ completes _ ih ih' => exact .object makes ih (completes.mono grown) ih'

theorem CallsConstructor.opcode {m : MemberRef} (h : CallsConstructor p i m) :
    i.opcode = .invokespecial := by
  have calls := h.calls
  unfold specialCall? at calls
  split at calls
  · assumption
  · cases calls

theorem CallsConstructor.makes_none {m : MemberRef} (h : CallsConstructor p i m) :
    i.opcode ≠ .newObject := by
  rw [h.opcode]
  decide

/-- The number of objects that wait for their constructors behind an instruction, if there is one
for each constructor that is called. -/
def pendingBehind (p : Pool) (pending : Nat) (i : Instruction) : Option Nat :=
  if i.opcode = .newObject then some (pending + 1)
  else match specialCall? p i with
    | .ok none => some pending
    | .ok (some m) =>
      if m.name ≠ "<init>" then some pending
      else if pending > 0 then some (pending - 1)
      else none
    | .error _ => none

theorem CallsConstructor.pendingBehind {m : MemberRef} (h : CallsConstructor p i m) (n : Nat) :
    pendingBehind p n i = if n > 0 then some (n - 1) else none := by
  rw [Weave.pendingBehind, if_neg h.makes_none, h.calls]
  exact if_neg (not_not.2 h.named)

theorem IsPlain.pendingBehind (h : IsPlain p i) (n : Nat) : pendingBehind p n i = some n := by
  obtain ⟨m?, calls, other⟩ := h.calls_none
  rw [Weave.pendingBehind, if_neg h.makes_none, calls]
  cases m? with
  | none => rfl
  | some m => exact if_pos (other m rfl)

/-- As many objects wait behind balanced code as in front of it. -/
theorem Balanced.pending (h : Balanced p is) (n : Nat) :
    is.foldlM (pendingBehind p) n = some n := by
  induction h generalizing n with
  | nil => rfl
  | plain first _ ih =>
    rw [List.foldlM_cons, first.pendingBehind]
    exact ih n
  | object makes _ completes _ ih ih' =>
    rw [List.cons_append, List.foldlM_cons, pendingBehind, if_pos makes]
    show List.foldlM _ (n + 1) _ = _
    rw [List.foldlM_append, ih, Option.bind_eq_bind, Option.bind_some, List.foldlM_cons,
      completes.pendingBehind]
    exact ih' n

/-- No balanced code goes past the call behind another. -/
theorem Balanced.not_past {m : MemberRef} (h : Balanced p is) (calls : CallsConstructor p i m)
    (rest : List Instruction) : ¬ Balanced p (is ++ i :: rest) := by
  intro past
  have := past.pending 0
  rw [List.foldlM_append, h.pending, Option.bind_eq_bind, Option.bind_some, List.foldlM_cons,
    calls.pendingBehind] at this
  cases this

/-- Code has at most one call that balanced code stands in front of. -/
theorem Balanced.unique {i' : Instruction} {m m' : MemberRef} {rest rest' : List Instruction}
    (h : Balanced p is) (h' : Balanced p js) (calls : CallsConstructor p i m)
    (calls' : CallsConstructor p i' m') (same : is ++ i :: rest = js ++ i' :: rest') :
    is = js ∧ i = i' ∧ rest = rest' := by
  rcases List.append_eq_append_iff.1 same with ⟨between, rfl, tail⟩ | ⟨between, rfl, tail⟩
  · cases between with
    | nil =>
      rw [List.append_nil]
      exact ⟨rfl, List.cons.inj tail⟩
    | cons j between =>
      obtain ⟨rfl, -⟩ := List.cons.inj tail
      exact absurd h' (h.not_past calls between)
  · cases between with
    | nil =>
      rw [List.append_nil]
      exact ⟨rfl, (List.cons.inj tail).imp Eq.symm Eq.symm⟩
    | cons j between =>
      obtain ⟨rfl, -⟩ := List.cons.inj tail
      exact absurd h (h'.not_past calls' between)

/-! ## What a constructor does first -/

/-- The scan for the start of a constructor passes code with an object for each call. -/
theorem startFrom_append {items rest : List Item} {position n n' : Nat}
    (h : (items.filterMap Item.instruction?).foldlM (pendingBehind p) n = some n') :
    startFrom p owner (items ++ rest) position n =
      startFrom p owner rest (position + items.length) n' := by
  induction items generalizing position n with
  | nil =>
    cases h
    rfl
  | cons item items ih =>
    rw [List.length_cons, ← Nat.add_assoc, Nat.add_right_comm]
    cases item with
    | label l => exact ih h
    | op i =>
      have h : ((pendingBehind p n i).bind fun k =>
          (items.filterMap Item.instruction?).foldlM (pendingBehind p) k) = some n' := h
      obtain ⟨k, first, h⟩ := Option.bind_eq_some_iff.1 h
      rw [List.cons_append, startFrom, ← ih h]
      unfold pendingBehind at first
      split at first
      · rw [if_pos ‹_›]
        cases first
        rfl
      · rw [if_neg ‹_›]
        split at first
        · rename_i calls
          cases first
          rw [calls]
          rfl
        · rename_i m calls
          rw [calls]
          show (if m.name ≠ "<init>" then _ else _) = _
          split at first
          · rw [if_pos ‹_›]
            cases first
            rfl
          · rw [if_neg ‹_›]
            split at first
            · rw [if_pos ‹_›]
              cases first
              rfl
            · cases first
        · cases first

/-- The scan ends at the first call without an object. -/
theorem startFrom_call {m : MemberRef} (calls : CallsConstructor p i m) (rest : List Item)
    (position : Nat) : startFrom p owner (.op i :: rest) position 0 =
      .ok (some (if m.owner = owner then .delegates else .callsSuper (position + 1))) := by
  rw [startFrom, if_neg calls.makes_none, calls.calls]
  show (if m.name ≠ "<init>" then _ else _) = _
  rw [if_neg (not_not.2 calls.named), if_neg (Nat.lt_irrefl 0)]
  split <;> rfl

/-! ## Splitting constructors -/

/-- The code of a constructor, split at the call that initializes its object. -/
structure Split where
  before : List Instruction
  call : Instruction
  target : MemberRef
  after : List Instruction

/-- All of the code. -/
def Split.code (s : Split) : List Instruction := s.before ++ s.call :: s.after

/-- The split code with further instructions directly behind the call. -/
def Split.insert (part : List Instruction) (s : Split) : Split :=
  { s with after := part ++ s.after }

theorem Split.code_insert (part : List Instruction) (s : Split) :
    (s.insert part).code = (s.before ++ [s.call]) ++ (part ++ s.after) := by
  rw [List.append_assoc]
  rfl

theorem Split.straight_insert {part : List Instruction} (s : Split)
    (old : ∀ i ∈ s.code, i.targets = []) (new : ∀ i ∈ part, i.targets = []) :
    ∀ i ∈ (s.insert part).code, i.targets = [] := by
  have split : s.code = (s.before ++ [s.call]) ++ s.after := s.code_insert []
  rw [split, List.forall_mem_append] at old
  rw [s.code_insert]
  exact List.forall_mem_append.2 ⟨old.1, List.forall_mem_append.2 ⟨new, old.2⟩⟩

end Weave

open Weave

/-- The code of the method does not branch, and the call is the first that completes no object. -/
structure Member.Splits (p : Pool) (m : Member) (s : Split) : Prop where
  code : ∃ b, m.body? p = some b ∧ b.instructions = s.code
  straight : ∀ i ∈ s.code, i.targets = []
  balanced : Balanced p s.before
  calls : CallsConstructor p s.call s.target

namespace Member.Splits

variable {m : Member} {s s' : Split}

theorem mono (h : m.Splits p s) (grown : p.Extends q) : m.Splits q s := by
  obtain ⟨b, body, code⟩ := h.code
  exact ⟨⟨b, Member.body?_mono body grown, code⟩, h.straight, h.balanced.mono grown,
    h.calls.mono grown⟩

/-- There is one way to split a constructor. -/
theorem unique (h : m.Splits p s) (h' : m.Splits p s') : s = s' := by
  obtain ⟨b, body, code⟩ := h.code
  obtain ⟨b', body', code'⟩ := h'.code
  cases body.symm.trans body'
  have calls := h.calls.calls
  have calls' := h'.calls.calls
  obtain ⟨before, call, target, after⟩ := s
  obtain ⟨before', call', target', after'⟩ := s'
  obtain ⟨rfl, rfl, rfl⟩ := h.balanced.unique h'.balanced h.calls h'.calls (code.symm.trans code')
  cases calls.symm.trans calls'
  rfl

/-- What the scan of a constructor comes to, and what stands around the place that it finds. -/
theorem constructorStart {code : CodeAttribute} {body : Body} (h : m.Splits p s)
    (coded : m.code? = some code) (read : Body.ofCode code p = .ok body) :
    ∃ position, constructorStart p owner body = .ok (some (if s.target.owner = owner then .delegates
        else .callsSuper position)) ∧
      body.instructionsBefore position = s.before ++ [s.call] ∧
      body.instructionsFrom position = s.after := by
  obtain ⟨b, known, instructions⟩ := h.code
  cases known.symm.trans (Member.body?_eq_some coded read)
  obtain ⟨items, rest, whole, before, tail⟩ := List.filterMap_eq_append_iff.1 instructions
  obtain ⟨labels, item, rest, rfl, plain, is_call, after⟩ := List.filterMap_eq_cons_iff.1 tail
  obtain rfl : item = .op s.call := by
    cases item with
    | label l => cases is_call
    | op i => exact congrArg Item.op (Option.some.inj is_call)
  have before : (items ++ labels).filterMap Item.instruction? = s.before := by
    rw [List.filterMap_append, before, List.filterMap_eq_nil_iff.2 plain, List.append_nil]
  have whole : body.code = (items ++ labels) ++ .op s.call :: rest := by
    rw [whole, List.append_assoc]
  generalize items ++ labels = items at before whole
  refine ⟨items.length + 1, ?_, ?_, ?_⟩
  · rw [Weave.constructorStart, whole, startFrom_append (before ▸ h.balanced.pending 0),
      startFrom_call h.calls, Nat.zero_add]
  · rw [Body.instructionsBefore, whole, List.take_length_add_append, List.filterMap_append, before]
    rfl
  · rw [Body.instructionsFrom, whole, List.drop_length_add_append, ← after]
    rfl

end Member.Splits

/-! ## Runs -/

namespace Weave

/-- The instructions that run of code without branches, to the first that leaves the method, and
whether the caller goes on behind them. -/
def untilExit : List Instruction → List Instruction × Bool
  | [] => ([], true)
  | i :: is =>
    if i.leaves then ([i], i.opcode.isReturn)
    else (i :: (untilExit is).1, (untilExit is).2)

theorem untilExit_append (stays : ∀ i ∈ is, i.leaves = false) (js : List Instruction) :
    untilExit (is ++ js) = (is ++ (untilExit js).1, (untilExit js).2) := by
  induction is with
  | nil => rfl
  | cons i is ih =>
    have first : i.leaves = false := stays i List.mem_cons_self
    rw [List.cons_append, untilExit, first, ih fun j mem => stays j (List.mem_cons_of_mem i mem)]
    rfl

theorem operation?_of_leaves (h : i.leaves = true) : operation? p i = none := by
  have other (o : Opcode) (stays : (Instruction.mk o .none).leaves = false) : i.opcode ≠ o := by
    rintro rfl
    exact Bool.false_ne_true (stays.symm.trans h)
  have late : ¬ (2 ≤ i.opcode.byte ∧ i.opcode.byte ≤ 8) := by
    rintro ⟨-, low⟩
    rcases Bool.or_eq_true_iff.1 h with returns | throws
    · have high := of_decide_eq_true (Bool.and_eq_true_iff.1 returns).1
      exact absurd (UInt8.le_trans high low) (by decide)
    · rw [of_decide_eq_true throws] at low
      exact absurd low (by decide)
  have call (owner name descriptor : String) :
      callOperation? i.opcode owner name descriptor = none := by
    unfold callOperation?
    split
    · rfl
    · rw [if_neg (other .invokestatic rfl), if_neg (other .invokevirtual rfl), ite_self]
  unfold operation?
  split
  · rw [plainOperation?, if_neg (other .nop rfl), if_neg (other .aload0 rfl), if_neg late]
  · exact if_neg (other .bipush rfl)
  · exact if_neg (other .sipush rfl)
  · unfold constantOperation?
    split
    · exact if_neg (other .checkcast rfl)
    · simp [other .getstatic rfl, other .putfield rfl]
    · simp [call]
    · exact if_neg (not_or.2 ⟨other .ldc rfl, other .ldc2W rfl⟩)
  · rfl

theorem targets_of_operation? {o : Operation} (h : operation? p i = some o) : i.targets = [] := by
  unfold operation? at h
  unfold Instruction.targets
  split at h
  · rw [‹i.operand = .none›]
    rfl
  · rw [‹i.operand = .byte _›]
    rfl
  · rw [‹i.operand = .short _›]
    rfl
  · rw [‹i.operand = .constant _›]
    rfl
  · cases h

/-- Code that is evaluated goes on to its end. -/
theorem stays_of_evaluate {e e' : Evaluation} (h : is.foldlM (evaluate p) e = some e') :
    ∀ i ∈ is, i.leaves = false ∧ i.targets = [] := by
  induction is generalizing e with
  | nil => exact List.forall_mem_nil _
  | cons i is ih =>
    rw [List.foldlM_cons] at h
    obtain ⟨e₁, first, rest⟩ := Option.bind_eq_some_iff.1 h
    obtain ⟨o, operation, -⟩ := Option.bind_eq_some_iff.1 first
    refine List.forall_mem_cons.2 ⟨⟨?_, targets_of_operation? operation⟩, ih rest⟩
    by_contra leaves
    rw [operation?_of_leaves (Bool.eq_true_of_not_eq_false leaves)] at operation
    cases operation

theorem Makes.stays {as : List Assignment} (h : Makes p is as) :
    ∀ i ∈ is, i.leaves = false ∧ i.targets = [] := stays_of_evaluate (h ⟨[], []⟩)

/-- A run of a constructor, split at its call of a constructor of the superclass. -/
structure Construction where
  before : List Instruction
  call : Instruction
  behind : List Instruction
  /-- Its caller goes on behind it. -/
  returns : Bool

namespace Construction

/-- The instructions that run, in their order. -/
def instructions (r : Construction) : List Instruction := r.before ++ r.call :: r.behind

/-- The run of a constructor that calls one with this run for its object. -/
def delegated (r : Construction) (s : Split) : Construction where
  before := s.before ++ r.before
  call := r.call
  behind := r.behind ++ if r.returns then (untilExit s.after).1 else []
  returns := r.returns && (untilExit s.after).2

/-- The run with further instructions directly behind the call. -/
def insert (part : List Instruction) (r : Construction) : Construction :=
  { r with behind := part ++ r.behind }

theorem delegated_insert (part : List Instruction) (r : Construction) (s : Split) :
    (r.insert part).delegated s = (r.delegated s).insert part :=
  congrArg (fun behind => { r.delegated s with behind }) (List.append_assoc part r.behind _)

end Construction

end Weave

namespace ClassFile

variable {c : ClassFile} {m m' : Member} {r r' : Construction}

/-- The method is a constructor. -/
def IsConstructor (c : ClassFile) (m : Member) : Prop := c.pool.utf8 m.name = .ok "<init>"

/-- The first constructor with that descriptor. -/
def constructor? (c : ClassFile) (descriptor : String) : Option Member :=
  c.methods.find? (·.isNamed c.pool "<init>" descriptor)

/-- The constructor runs so, in a class of that name. -/
inductive Constructs (c : ClassFile) (owner : ClassName) : Member → Construction → Prop where
  /-- It calls a constructor of the superclass. -/
  | direct {m : Member} {s : Split} (splits : m.Splits c.pool s) (other : s.target.owner ≠ owner) :
    Constructs c owner m ⟨s.before, s.call, (untilExit s.after).1, (untilExit s.after).2⟩
  /-- It calls a constructor of its class, whose run the call stands for. -/
  | delegated {m m' : Member} {s : Split} {r : Construction} (splits : m.Splits c.pool s)
    (own : s.target.owner = owner) (named : c.constructor? s.target.descriptor = some m')
    (run : Constructs c owner m' r) : Constructs c owner m (r.delegated s)

/-- The method calls the other one to initialize its object. -/
def DelegatesTo (c : ClassFile) (owner : ClassName) (m m' : Member) : Prop :=
  m ∈ c.methods ∧ ∃ s, m.Splits c.pool s ∧ s.target.owner = owner ∧
    c.constructor? s.target.descriptor = some m'

/-- The constructors of the class do not branch and can be split; those that delegate find what they
name in the class, and not themselves in the end. -/
structure PlainConstructors (c : ClassFile) (owner : ClassName) : Prop where
  splits : ∀ m ∈ c.methods, c.IsConstructor m → ∃ s, m.Splits c.pool s
  resolves : ∀ m ∈ c.methods, c.IsConstructor m → ∀ s, m.Splits c.pool s → s.target.owner = owner →
    ∃ m', c.constructor? s.target.descriptor = some m'
  acyclic : ∀ m, ¬ Relation.TransGen (c.DelegatesTo owner) m m

theorem constructor?_eq_some {descriptor : String} (h : c.constructor? descriptor = some m) :
    m ∈ c.methods ∧ c.IsConstructor m :=
  ⟨List.mem_of_find?_eq_some h, (Member.isNamed_iff.1 (List.find?_some h)).1⟩

/-- A constructor has at most one run. -/
theorem Constructs.unique (h : c.Constructs owner m r) (h' : c.Constructs owner m r') : r' = r := by
  induction h generalizing r' with
  | direct splits other =>
    cases h' with
    | direct splits' other' =>
      cases splits.unique splits'
      rfl
    | delegated splits' own' named' run' =>
      cases splits.unique splits'
      exact absurd own' other
  | delegated splits own named run ih =>
    cases h' with
    | direct splits' other' =>
      cases splits.unique splits'
      exact absurd own other'
    | delegated splits' own' named' run' =>
      cases splits.unique splits'
      cases named.symm.trans named'
      rw [ih run']

/-- Delegations end. -/
theorem PlainConstructors.wellFounded (h : c.PlainConstructors owner) :
    WellFounded fun a b : { m // m ∈ c.methods } =>
      Relation.TransGen (c.DelegatesTo owner) b.1 a.1 := by
  have : Finite { m // m ∈ c.methods } := List.finite_toSet c.methods
  have : IsTrans { m // m ∈ c.methods } fun a b =>
      Relation.TransGen (c.DelegatesTo owner) b.1 a.1 :=
    ⟨fun _ _ _ first second => second.trans first⟩
  have : Std.Irrefl fun a b : { m // m ∈ c.methods } =>
      Relation.TransGen (c.DelegatesTo owner) b.1 a.1 := ⟨fun m => h.acyclic m.1⟩
  exact Finite.wellFounded_of_trans_of_irrefl _

/-- Each constructor has a run. -/
theorem PlainConstructors.constructs (h : c.PlainConstructors owner) (mem : m ∈ c.methods)
    (special : c.IsConstructor m) : ∃ r, c.Constructs owner m r := by
  suffices each : ∀ m : { m // m ∈ c.methods }, c.IsConstructor m.1 → ∃ r, c.Constructs owner m.1 r
    from each ⟨m, mem⟩ special
  intro m
  induction m using h.wellFounded.induction with
  | _ m ih =>
    intro special
    obtain ⟨s, splits⟩ := h.splits m m.2 special
    by_cases own : s.target.owner = owner
    · obtain ⟨m', named⟩ := h.resolves m m.2 special s splits own
      obtain ⟨mem', special'⟩ := constructor?_eq_some named
      obtain ⟨r, run⟩ := ih ⟨m', mem'⟩ (.single ⟨m.2, s, splits, own, named⟩) special'
      exact ⟨_, .delegated splits own named run⟩
    · exact ⟨_, .direct splits own⟩

end ClassFile

end Weft
