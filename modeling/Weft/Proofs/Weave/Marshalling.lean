import Weft.Proofs.Machine.Bodies
import Weft.Proofs.Weave.Helpers
import Weft.Proofs.Weave.Interception

/-!
# What wrappers and helpers do

A wrapper packs the arguments of a call for the bridge, with a helper for the kept body, and unboxes
what the bridge answers. The helper unpacks such an array for the kept body and boxes what the body
answers. Both are runs of actions that their code performs, within depths that are known beforehand.
-/

namespace Weft.Weave

open Machine

/-! ## What is called -/

/-- The method of the bridge that wrappers call. -/
def interceptMethod : Method := ⟨bridgeClass.internal, "intercept", interceptDescriptor⟩

/-- The receiver of a call in front of its arguments; a static method has none. -/
def thisWords (isStatic : Bool) (receiver : Ref) : List Word :=
  if isStatic then [] else [.ref receiver]

/-- The receiver that the bridge is told. -/
def toldReceiver (isStatic : Bool) (receiver : Ref) : Ref := if isStatic then .null else receiver

namespace PlannedIntercept

/-- The helper that calls the kept body. -/
def helper (i : PlannedIntercept) : Helper :=
  ⟨i.thunk, .call i.keptAs i.site.descriptor i.site.isStatic⟩

/-- The method that the body of the intercepted method is kept in. -/
def keptMethod (owner : ClassName) (i : PlannedIntercept) : Method :=
  ⟨owner.internal, i.keptAs, i.site.descriptor⟩

/-- The field of the helper that holds the receiver. -/
def targetKey (owner : ClassName) (i : PlannedIntercept) : FieldKey :=
  ⟨i.thunk.internal, targetField, (JType.reference owner).descriptor⟩

/-- A helper as its constructor leaves it. -/
def helperCell (owner : ClassName) (i : PlannedIntercept) (receiver : Ref) : Cell :=
  .object i.thunk.internal ((thisWords i.site.isStatic receiver).map (i.targetKey owner, ·))

/-- The heap behind the packed arguments and the helper. -/
def packedHeap (owner : ClassName) (i : PlannedIntercept) (receiver : Ref) (boxes : List Ref)
    (heap : List Cell) : List Cell :=
  heap ++ [.array ClassName.object.internal boxes, i.helperCell owner receiver]

/-- What the bridge is passed, from the heap before the call on. -/
def bridgeArguments (i : PlannedIntercept) (receiver : Ref) (heap : List Cell) : List Word :=
  [.ref (.text i.token), .ref (toldReceiver i.site.isStatic receiver),
    .ref (.object heap.length), .ref (.object (heap.length + 1))]

end PlannedIntercept

/-- How a wrapper ends on what the bridge answers. -/
def unboxedExit {σ : Type} (env : Env σ) (heap : List Cell) (t : JType) : Except Ref Ref → Exit
  | .error e => .thrown (.raised e)
  | .ok r =>
    if t.isVoid then .returned none
    else match env.unbox heap t r with
      | .ok w => .returned (some w)
      | .error e => .thrown e

theorem unboxedExit_ne_stuck {σ : Type} (env : Env σ) (heap : List Cell) (t : JType)
    (answer : Except Ref Ref) : unboxedExit env heap t answer ≠ .stuck := by
  unfold unboxedExit
  split
  · exact nofun
  · split
    · exact nofun
    · split <;> exact nofun

/-- The object for what a method of the type answers. -/
def boxedAnswer? (t : JType) : Option Word → Option Ref
  | none => some .null
  | some w => t.box? w

theorem boxedAnswer?_of_answers {t : JType} {w : Option Word} (h : t.Answers w) :
    ∃ r, boxedAnswer? t w = some r := by
  cases w with
  | none => exact ⟨.null, rfl⟩
  | some w => exact JType.Holds.box? h

/-- A helper ends so on what the kept body answers. -/
def EndsBoxed (t : JType) : Except Ref (Option Word) → Exit → Prop
  | .error e, exit => exit = .thrown (.raised e)
  | .ok w, exit => ∃ r, boxedAnswer? t w = some r ∧ exit = .returned (some (.ref r))

theorem EndsBoxed.ne_stuck {t : JType} {answer : Except Ref (Option Word)} {exit : Exit}
    (h : EndsBoxed t answer exit) : exit ≠ .stuck := by
  cases answer with
  | error e => exact h ▸ nofun
  | ok w =>
    obtain ⟨r, -, rfl⟩ := h
    exact nofun

/-! ## Wrappers -/

section Wrappers

variable {σ : Type} {env : Env σ} {enter : Enter σ} {owner : ClassName} {i : PlannedIntercept}
  {isStatic : Bool} {c : Constructor}

/-- What puts the receiver on the stack, unless the method is static. -/
def thisActions (isStatic : Bool) : List Machine.Act :=
  if isStatic then [] else [.load .reference 0]

/-- What puts the receiver on the stack, or null. -/
def receiverActions (isStatic : Bool) : List Machine.Act :=
  if isStatic then [.push (.ref .null)] else [.load .reference 0]

/-- What makes a helper. -/
def helperActions (helper : ClassName) (isStatic : Bool) (c : Constructor) : List Machine.Act :=
  .make helper.internal :: .dup :: (thisActions isStatic ++ [.construct c])

/-- What returns the object on the stack as a value of the type. -/
def returnActions (t : JType) : List Machine.Act :=
  (if t.isVoid then [.pop] else Build.unboxActions t) ++ [.leave t.kind?]

/-- What a wrapper does. -/
def wrapperActions (i : PlannedIntercept) (c : Constructor) : List Machine.Act :=
  [.push (.ref (.text i.token))] ++ (receiverActions i.site.isStatic ++
    (packAllActions i.site.descriptor.params (firstSlot i.site.isStatic) ++
      (helperActions i.thunk i.site.isStatic c ++ ([.invoke true interceptMethod] ++
        returnActions i.site.descriptor.ret))))

theorem performs_loadReceiver (isStatic : Bool) :
    Build.Performs env (loadReceiver isStatic) (receiverActions isStatic) := by
  cases isStatic with
  | true => exact Build.performs_pushNull
  | false => exact Build.performs_loadThis

theorem performs_makeHelper {helper : ClassName}
    (known : env.constructors helper.internal (helperDescriptor owner isStatic).descriptor = some c)
    (params : c.params = (helperDescriptor owner isStatic).params) :
    Build.Performs env (makeHelper owner helper isStatic) (helperActions helper isStatic c) := by
  refine (Build.performs_newObject helper).bind (Build.performs_dup.bind ?_)
  cases isStatic with
  | true => exact Build.performs_construct known rfl (show 0 < 65535 by decide) params
  | false =>
    exact Build.performs_loadThis.bind
      (Build.performs_construct known rfl (show 1 < 65535 by decide) params)

theorem performs_returnObject (t : JType) :
    Build.Performs env (returnObject t) (returnActions t) := by
  unfold returnObject returnActions
  cases t.isVoid with
  | true => exact Build.performs_popObject.bind (Build.performs_returnValue t)
  | false => exact (Build.performs_unbox t).bind (Build.performs_returnValue t)

theorem spelled_accessor : (JType.reference methodAccessorClass).Spelled :=
  .element (.reference (ClassName.spelled_of_all (by decide) (by decide)))

theorem spelled_interceptDescriptor : interceptDescriptor.Spelled where
  params t mem := by
    simp only [interceptDescriptor, List.mem_cons, List.not_mem_nil, or_false] at mem
    rcases mem with rfl | rfl | rfl | rfl
    · exact spelled_string
    · exact spelled_object
    · exact spelled_objects
    · exact spelled_accessor
  ret := .inr spelled_object

theorem performs_wrapperCode
    (known : env.constructors i.thunk.internal
      (helperDescriptor owner i.site.isStatic).descriptor = some c)
    (params : c.params = (helperDescriptor owner i.site.isStatic).params) :
    Build.Performs env (i.wrapperCode owner) (wrapperActions i c) :=
  (Build.performs_pushString i.token).bind <| (performs_loadReceiver _).bind <|
    (Build.performs_packArguments _ _).bind <| (performs_makeHelper known params).bind <|
      (Build.performs_invokeStatic spelled_interceptDescriptor (by decide) (by decide)).bind <|
        performs_returnObject _

theorem thisActions_spans (isStatic : Bool) (top : Nat) (some : 1 ≤ top) :
    Spans (thisActions isStatic) 0 (if isStatic then 0 else 1) top := by
  cases isStatic with
  | true => exact .refl 0 top
  | false => exact .single (a := .load .reference 0) rfl some

theorem receiverActions_spans (isStatic : Bool) : Spans (receiverActions isStatic) 0 1 1 := by
  cases isStatic with
  | true => exact .single (a := .push (.ref .null)) rfl (Nat.le_refl 1)
  | false => exact .single (a := .load .reference 0) rfl (Nat.le_refl 1)

theorem helperActions_spans (helper : ClassName)
    (params : c.params = (helperDescriptor owner isStatic).params) :
    Spans (helperActions helper isStatic c) 0 1 3 := by
  refine (Spans.single (a := .make helper.internal) (q := 1) rfl (by decide)).trans
    ((Spans.single (a := .dup) (q := 2) rfl (by decide)).trans ?_)
  have loaded := ((thisActions_spans isStatic 1 (Nat.le_refl 1)).above 2)
  rw [Nat.zero_add] at loaded
  refine loaded.trans (.single (a := .construct c) ?_ (by decide))
  rw [Act.pops, Act.pushes, params]
  cases isStatic <;> rfl

theorem returnActions_spans (t : JType) : Spans (returnActions t) 1 0 2 := by
  cases kind : t.kind? with
  | none =>
    obtain rfl := JType.eq_void_of_kind? kind
    exact (Spans.single (a := .pop) (q := 0) rfl (by decide)).trans
      (.single (a := .leave none) rfl (by decide))
  | some k =>
    have value := JType.isVoid_of_kind? kind
    have slots : t.slots.toNat = (Machine.Act.leave (some k)).pops := JType.toNat_slots kind
    rw [returnActions, if_neg (Bool.not_eq_true _ ▸ value), kind]
    refine (unboxActions_spans value).trans (.single ?_ (by decide))
    rw [← slots]
    exact (Nat.zero_add _).symm

theorem wrapperActions_spans (params : c.params = (helperDescriptor owner i.site.isStatic).params)
    (values : ∀ t ∈ i.site.descriptor.params, t.isVoid = false) :
    Spans (wrapperActions i c) 0 0 8 := by
  have packed := (packAllActions_spans values (firstSlot i.site.isStatic)).above 2
  have made := (helperActions_spans i.thunk params).above 3
  exact (Spans.single (q := 1) (by rfl) (by decide)).trans
    (Spans.trans (q := 2) (((receiverActions_spans i.site.isStatic).above 1).mono (by decide))
      (Spans.trans (q := 3) (packed.mono (by decide)) (Spans.trans (q := 4) (made.mono (by decide))
        ((Spans.single (a := .invoke true interceptMethod) (q := 1) (by rfl) (by decide)).trans
          ((returnActions_spans _).mono (by decide))))))

section Runs

variable {stack args : List Word} {receiver : Ref} {s s' : Shared σ}

theorem receiverActions_leads : Leads env enter (receiverActions isStatic)
    ⟨stack, layOut (thisWords isStatic receiver ++ args), s⟩
    ⟨.ref (toldReceiver isStatic receiver) :: stack,
      layOut (thisWords isStatic receiver ++ args), s⟩ := by
  cases isStatic <;> exact .single rfl

theorem thisActions_leads : Leads env enter (thisActions isStatic)
    ⟨stack, layOut (thisWords isStatic receiver ++ args), s⟩
    ⟨(thisWords isStatic receiver).reverse ++ stack,
      layOut (thisWords isStatic receiver ++ args), s⟩ := by
  cases isStatic with
  | true => exact .refl _
  | false => exact .single rfl

/-- The helper stands at an address of its own, as its constructor leaves it. -/
theorem helperActions_leads {helper : ClassName}
    (params : c.params = (helperDescriptor owner isStatic).params)
    (entered : enter c (.ref (.object s.heap.length) :: thisWords isStatic receiver)
      { s with heap := s.heap ++ [.object helper.internal []] } = (.returned none, s')) :
    Leads env enter (helperActions helper isStatic c)
      ⟨stack, layOut (thisWords isStatic receiver ++ args), s⟩
      ⟨.ref (.object s.heap.length) :: stack, layOut (thisWords isStatic receiver ++ args), s'⟩ := by
  refine (Leads.single rfl).trans ((Leads.single rfl).trans (thisActions_leads.trans ?_))
  refine construct_leads ?_ entered
  rw [params]
  cases isStatic <;> rfl

theorem returnActions_ends {t : JType} {r : Ref} {locals : List (Option Word)} :
    Ends env enter (returnActions t) ⟨[.ref r], locals, s⟩ (unboxedExit env s.heap t (.ok r)) s := by
  cases kind : t.kind? with
  | none =>
    obtain rfl := JType.eq_void_of_kind? kind
    exact (Leads.single rfl).ends leaveVoid_ends
  | some k =>
    have value := JType.isVoid_of_kind? kind
    have other : ¬ t.isVoid = true := by simp [value]
    rw [returnActions, if_neg other, unboxedExit, if_neg other, kind]
    cases opened : env.unbox s.heap t r with
    | error e => exact (unbox_ends value opened).append _
    | ok w =>
      have same := (JType.kind?_of_box? (box?_of_unbox opened)).symm.trans kind
      exact (unbox_leads opened).ends (leave_ends (Option.some.inj same))

theorem toNat_firstSlot (isStatic : Bool) (receiver : Ref) :
    (firstSlot isStatic).toNat = (layOut (thisWords isStatic receiver)).length := by
  cases isStatic <;> rfl

/-- What a wrapper does: it calls the bridge on what it packs, and ends on the answer. -/
theorem wrapperActions_ends {answer : Except Ref Ref} {boxes : List Ref}
    (params : c.params = (helperDescriptor owner i.site.isStatic).params)
    (values : ∀ t ∈ i.site.descriptor.params, t.isVoid = false)
    (few : slotsOf i.site.descriptor.params < 65535)
    (held : List.Forall₂ JType.Holds i.site.descriptor.params args)
    (boxed : boxAll? i.site.descriptor.params args = some boxes)
    (entered : ∀ heap, enter c (.ref (.object heap.length) :: thisWords i.site.isStatic receiver)
      { s with heap := heap ++ [.object i.thunk.internal []] } =
        (.returned none, { s with heap := heap ++ [i.helperCell owner receiver] }))
    (called : env.invoke interceptMethod (i.bridgeArguments receiver s.heap)
      { s with heap := i.packedHeap owner receiver boxes s.heap } =
        (answer.map (some ∘ .ref), s')) :
    Ends env enter (wrapperActions i c)
      ⟨[], layOut (thisWords i.site.isStatic receiver ++ args), s⟩
      (unboxedExit env s'.heap i.site.descriptor.ret answer) s' := by
  have count := (length_le_slotsOf values).1
  have first := toNat_firstSlot i.site.isStatic receiver
  have low : (firstSlot i.site.isStatic).toNat ≤ 1 := by cases i.site.isStatic <;> decide
  have address : (s.heap ++ [Cell.array ClassName.object.internal boxes]).length =
      s.heap.length + 1 := List.length_append
  have made : Leads env enter (helperActions i.thunk i.site.isStatic c)
      ⟨[.ref (.object s.heap.length), .ref (toldReceiver i.site.isStatic receiver),
          .ref (.text i.token)], layOut (thisWords i.site.isStatic receiver ++ args),
        { s with heap := s.heap ++ [.array ClassName.object.internal boxes] }⟩ _ :=
    helperActions_leads params (entered _)
  rw [List.append_assoc] at made
  dsimp only at made
  rw [address] at made
  refine (Leads.single rfl).ends (receiverActions_leads.ends ((packAllActions_leads held boxed
    (layOut_append _ _) first (by omega) (by omega)).ends (made.ends ?_)))
  have kinds : (i.bridgeArguments receiver s.heap).map (some ·.kind) =
      interceptMethod.descriptor.params.map JType.kind? := rfl
  have static : true = false → Ref.null ≠ .null := fun h => nomatch h
  cases answer with
  | error e => exact (invoke_ends kinds static called).append _
  | ok r => exact (invoke_leads kinds static called).ends returnActions_ends

end Runs

end Wrappers

/-! ## Helpers -/

section Helpers

variable {σ : Type} {env : Env σ} {enter : Enter σ} {owner : ClassName} {i : PlannedIntercept}

/-- What the constructor of a helper does. -/
def constructorActions (owner : ClassName) (i : PlannedIntercept) : List Machine.Act :=
  .load .reference 0 :: .pop ::
    if i.site.isStatic then [.leave none]
    else [.load .reference 0, .load .reference 1, .putField (i.targetKey owner), .leave none]

/-- What puts the receiver that a helper holds on the stack. -/
def targetActions (owner : ClassName) (i : PlannedIntercept) : List Machine.Act :=
  if i.site.isStatic then [] else [.load .reference 0, .getField (i.targetKey owner)]

/-- What returns what a method of the type has answered, as an object. -/
def answerActions (t : JType) : List Machine.Act :=
  (if t.isVoid then [.push (.ref .null)] else Build.boxActions t) ++ [.leave (some .reference)]

/-- What a helper does when it is called. -/
def invokeActions (owner : ClassName) (i : PlannedIntercept) : List Machine.Act :=
  targetActions owner i ++ (unpackActions 1 i.site.descriptor.params 0 ++
    ([.invoke i.site.isStatic (i.keptMethod owner)] ++ answerActions i.site.descriptor.ret))

theorem kind_targetKey : (i.targetKey owner).kind = .reference := by
  have first : (i.targetKey owner).descriptor.toList.head? = some 'L' := by
    show ("L" ++ owner.internal ++ ";").toList.head? = some 'L'
    rw [String.toList_append, String.toList_append]
    rfl
  rw [FieldKey.kind, first]
  rfl

theorem performs_constructorCode :
    Build.Performs env (i.helper.constructorCode owner) (constructorActions owner i) := by
  have same : i.helper.kind.isStatic = i.site.isStatic := rfl
  unfold Helper.constructorCode constructorActions
  refine Build.performs_loadThis.bind (Build.performs_initObject.bind ?_)
  rw [same]
  cases i.site.isStatic with
  | true => exact Build.performs_returnValue .void
  | false =>
    have stored : Build.Performs env (Build.putField i.thunk targetField (.reference owner))
        [.putField (i.targetKey owner)] := by
      refine Build.performs_field (by decide) (by decide) (fun p index held small => ?_) ?_ rfl
      · rw [resolve_field held small]
        rfl
      · rw [Machine.Act.pops, kind_targetKey]
        rfl
    exact Build.performs_loadThis.bind ((Build.performs_load (.reference owner) 1).bind
      (stored.bind (Build.performs_returnValue .void)))

theorem performs_loadTarget :
    Build.Performs env (i.helper.loadTarget owner) (targetActions owner i) := by
  have same : i.helper.kind.isStatic = i.site.isStatic := rfl
  unfold Helper.loadTarget targetActions
  rw [same]
  cases i.site.isStatic with
  | true => exact .pure
  | false =>
    refine Build.performs_loadThis.bind
      (Build.performs_field (by decide) (by decide) (fun p index held small => ?_) rfl ?_)
    · rw [resolve_field held small]
      rfl
    · rw [Machine.Act.pushes, kind_targetKey]
      rfl

theorem performs_answer (t : JType) : Build.Performs env (do
    if t.isVoid then Build.pushNull else Build.box t
    Build.returnValue .object) (answerActions t) := by
  unfold answerActions
  cases t.isVoid with
  | true => exact Build.performs_pushNull.bind (Build.performs_returnValue .object)
  | false => exact (Build.performs_box t).bind (Build.performs_returnValue .object)

/-- No method that is built in has a name with a dollar sign. -/
theorem boxing?_of_dollar {m : Method} (dollar : '$' ∈ m.name.toList) : boxing? m = none := by
  rw [boxing?, List.find?_eq_none]
  intro p _ same
  rw [of_decide_eq_true same] at dollar
  exact absurd dollar (show '$' ∉ "valueOf".toList by decide)

theorem unboxing?_of_dollar {m : Method} (dollar : '$' ∈ m.name.toList) : unboxing? m = none := by
  rw [unboxing?, List.find?_eq_none]
  intro p _ same
  rw [of_decide_eq_true same] at dollar
  exact absurd dollar (by cases p <;> decide)

theorem performs_invokeCode (spelled : i.site.descriptor.Spelled)
    (few : slotsOf i.site.descriptor.params < 65535) (dollar : '$' ∈ i.keptAs.toList) :
    Build.Performs env (i.helper.invokeCode owner i.keptAs i.site.descriptor)
      (invokeActions owner i) := by
  have same : i.helper.kind.isStatic = i.site.isStatic := rfl
  unfold Helper.invokeCode invokeActions PlannedIntercept.keptMethod
  refine performs_loadTarget.bind ((Build.performs_unpackEach _ _ _).bind ?_)
  rw [same]
  cases i.site.isStatic with
  | true =>
    exact (Build.performs_invokeStatic spelled few (boxing?_of_dollar dollar)).bind
      (performs_answer _)
  | false =>
    exact (Build.performs_invokeVirtual spelled few (unboxing?_of_dollar dollar)).bind
      (performs_answer _)

theorem constructorActions_spans : Spans (constructorActions owner i) 0 0 2 := by
  refine (Spans.single (a := .load .reference 0) (q := 1) rfl (by decide)).trans
    ((Spans.single (a := .pop) (q := 0) rfl (by decide)).trans ?_)
  cases i.site.isStatic with
  | true => exact .single (a := .leave none) rfl (by decide)
  | false =>
    refine (Spans.single (a := .load .reference 0) (q := 1) rfl (by decide)).trans
      ((Spans.single (a := .load .reference 1) (q := 2) rfl (by decide)).trans
        ((Spans.single (a := .putField (i.targetKey owner)) (q := 0) ?_ (by decide)).trans
          (.single (a := .leave none) rfl (by decide))))
    rw [Machine.Act.pops, kind_targetKey]
    rfl

theorem targetActions_spans (top : Nat) (some : 1 ≤ top) :
    Spans (targetActions owner i) 0 (if i.site.isStatic then 0 else 1) top := by
  unfold targetActions
  cases i.site.isStatic with
  | true => exact .refl 0 top
  | false =>
    refine (Spans.single (a := .load .reference 0) (q := 1) rfl some).trans
      (.single (a := .getField (i.targetKey owner)) ?_ some)
    rw [Machine.Act.pushes, kind_targetKey]
    rfl

theorem answerActions_spans (t : JType) : Spans (answerActions t) t.slots.toNat 0 1 := by
  have left : Spans [.leave (some .reference)] 1 0 1 := .single rfl (by decide)
  cases kind : t.kind? with
  | none =>
    obtain rfl := JType.eq_void_of_kind? kind
    exact (Spans.single (a := .push (.ref .null)) (q := 1) rfl (by decide)).trans left
  | some k =>
    have value := JType.isVoid_of_kind? kind
    rw [answerActions, if_neg (Bool.not_eq_true _ ▸ value)]
    exact (boxActions_spans value).trans left

theorem invokeActions_spans (values : ∀ t ∈ i.site.descriptor.params, t.isVoid = false) :
    Spans (invokeActions owner i) 0 0 (slotsOf i.site.descriptor.params + 3) := by
  have unpacked := (unpackActions_spans values 1 0).above (if i.site.isStatic then 0 else 1)
  rw [Nat.zero_add] at unpacked
  have small : i.site.descriptor.ret.slots.toNat ≤ 2 := by
    cases kind : i.site.descriptor.ret.kind? with
    | none =>
      rw [JType.eq_void_of_kind? kind]
      exact Nat.zero_le 2
    | some k => exact (slots_pos (JType.isVoid_of_kind? kind)).2
  refine (targetActions_spans _ (by omega)).trans ((unpacked.mono ?_).trans
    ((Spans.single (a := .invoke i.site.isStatic (i.keptMethod owner))
      (q := i.site.descriptor.ret.slots.toNat) ?_ (by omega)).trans
        ((answerActions_spans _).mono (by omega))))
  · split <;> omega
  · simp only [Machine.Act.pushes, Machine.Act.pops, PlannedIntercept.keptMethod]
    omega

section Runs

variable {receiver : Ref} {a h : Nat} {element : String} {items : List Ref} {s s' : Shared σ}

/-- The constructor makes the helper that holds the receiver. -/
theorem constructorActions_ends (found : s.heap[a]? = some (.object i.thunk.internal [])) :
    Ends env enter (constructorActions owner i)
      ⟨[], layOut (.ref (.object a) :: thisWords i.site.isStatic receiver), s⟩ (.returned none)
      (s.set a (i.helperCell owner receiver)) := by
  unfold constructorActions PlannedIntercept.helperCell
  refine (Leads.single rfl).ends ((Leads.single rfl).ends ?_)
  cases i.site.isStatic with
  | true =>
    show Ends env enter [.leave none] _ _ (s.set a (.object i.thunk.internal []))
    rw [Shared.set_same found]
    exact leaveVoid_ends
  | false =>
    have kind : (Word.ref receiver).kind = (i.targetKey owner).kind := kind_targetKey.symm
    exact (Leads.single rfl).ends ((Leads.single rfl).ends
      ((putField_leads found kind).ends leaveVoid_ends))

theorem targetActions_leads {rest : List (Option Word)}
    (found : s.heap[h]? = some (i.helperCell owner receiver)) :
    Leads env enter (targetActions owner i) ⟨[], some (.ref (.object h)) :: rest, s⟩
      ⟨(thisWords i.site.isStatic receiver).reverse, some (.ref (.object h)) :: rest, s⟩ := by
  unfold targetActions
  unfold PlannedIntercept.helperCell at found
  cases static : i.site.isStatic with
  | true => exact .refl _
  | false =>
    rw [static] at found
    refine (Leads.single rfl).trans (getField_leads found ?_ kind_targetKey.symm)
    simp [thisWords]

/-- An answer is returned as an object. -/
theorem answerActions_ends {t : JType} {w : Option Word} {r : Ref} {locals : List (Option Word)}
    (answers : t.Answers w) (boxed : boxedAnswer? t w = some r) :
    Ends env enter (answerActions t) ⟨w.toList, locals, s⟩ (.returned (some (.ref r))) s := by
  cases w with
  | none =>
    obtain rfl : t = .void := answers
    cases boxed
    exact (Leads.single rfl).ends (leave_ends rfl)
  | some w =>
    have value := JType.isVoid_of_kind? (JType.Holds.kind? answers)
    rw [answerActions, if_neg (Bool.not_eq_true _ ▸ value)]
    exact (box_leads boxed).ends (leave_ends rfl)

/-- The helper ends at the first object that is no value of its type. -/
theorem invokeActions_refuse {e : Fault}
    (values : ∀ t ∈ i.site.descriptor.params, t.isVoid = false)
    (few : i.site.descriptor.params.length < 2147483648)
    (helped : s.heap[h]? = some (i.helperCell owner receiver))
    (found : s.heap[a]? = some (.array element items))
    (refused : env.unboxAll s.heap i.site.descriptor.params items = .error e) :
    Ends env enter (invokeActions owner i)
      ⟨[], layOut [.ref (.object h), .ref (.object a)], s⟩ (.thrown e) s :=
  (targetActions_leads helped).ends
    ((unpackActions_ends values rfl found (by omega) refused).append _)

/-- The helper calls the kept body on what it unpacks, and ends on the answer. -/
theorem invokeActions_ends {ws : List Word} {answer : Except Ref (Option Word)}
    (few : i.site.descriptor.params.length < 2147483648)
    (present : i.site.isStatic = false → receiver ≠ .null)
    (helped : s.heap[h]? = some (i.helperCell owner receiver))
    (found : s.heap[a]? = some (.array element items))
    (unboxed : env.unboxAll s.heap i.site.descriptor.params items = .ok ws)
    (called : env.invoke (i.keptMethod owner) (thisWords i.site.isStatic receiver ++ ws) s =
      (answer, s')) :
    ∃ exit, EndsBoxed i.site.descriptor.ret answer exit ∧ Ends env enter (invokeActions owner i)
      ⟨[], layOut [.ref (.object h), .ref (.object a)], s⟩ exit s' := by
  have unpacked : Leads env enter (unpackActions 1 i.site.descriptor.params 0)
      ⟨(thisWords i.site.isStatic receiver).reverse,
        layOut [.ref (.object h), .ref (.object a)], s⟩ _ :=
    unpackActions_leads rfl found (by omega) unboxed
  have laid : ws.reverse ++ (thisWords i.site.isStatic receiver).reverse =
      callStack i.site.isStatic receiver ws [] := by
    unfold callStack thisWords
    cases i.site.isStatic <;> rfl
  have passed : thisWords i.site.isStatic receiver ++ ws =
      callWords i.site.isStatic receiver ws := by
    unfold callWords thisWords
    cases i.site.isStatic <;> rfl
  have kinds : ws.map (some ·.kind) = (i.keptMethod owner).descriptor.params.map JType.kind? :=
    kinds_of_unboxAll unboxed
  rw [laid] at unpacked
  rw [passed] at called
  cases answer with
  | error e =>
    exact ⟨_, rfl, (targetActions_leads helped).ends (unpacked.ends
      ((invoke_ends kinds present called).append _))⟩
  | ok w =>
    have answers := env.invoke_answers called
    obtain ⟨r, boxed⟩ := boxedAnswer?_of_answers answers
    have left : Ends env enter (answerActions i.site.descriptor.ret)
        ⟨w.toList ++ [], layOut [.ref (.object h), .ref (.object a)], s'⟩
        (.returned (some (.ref r))) s' := by
      rw [List.append_nil]
      exact answerActions_ends answers boxed
    exact ⟨_, ⟨r, boxed, rfl⟩, (targetActions_leads helped).ends (unpacked.ends
      ((invoke_leads kinds present called).ends left))⟩

end Runs

end Helpers

end Weft.Weave
