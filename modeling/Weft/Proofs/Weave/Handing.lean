import Weft.Proofs.Code.Splicing
import Weft.Proofs.Weave.Additions
import Weft.Proofs.Weave.Callbacks
import Weft.Proofs.Weave.Delegation
import Weft.Proofs.Weave.Sources

/-!
# Woven code hands over its token

The code of a wrapper and that of an added method call the bridge once, with the token as a constant
of the code. The code that gives fields their first values calls it once for each computed field,
in their order, with what the holder of the field holds. Methods that are emitted are read back
with the code that was built, and so are their calls.
-/

namespace Weft

variable {p q r : Pool} {owner : ClassName}

namespace Weave

/-! ## Parts of the code -/

theorem hands_loadReceiver (isStatic : Bool) (st : List Source) :
    Hands (loadReceiver isStatic) st (.other :: st) [] := by
  cases isStatic with
  | true => exact hands_pushNull st
  | false => exact hands_loadThis st

/-- The array stays on the stack, whatever goes into it. -/
theorem hands_packEach (ts : List JType) (index : Nat) (slot : UInt16) (st : List Source) :
    Hands (Build.packEach ts index slot) (.other :: st) (.other :: st) [] := by
  induction ts generalizing index slot with
  | nil => exact .pure _ _
  | cons t ts ih =>
    exact (hands_dup _ _).before fun _ => (hands_pushInt _ _).before fun _ =>
      (hands_load t slot _).before fun _ => (hands_box t _).before fun _ =>
        (hands_arrayStore _ _ _ _).before fun _ => ih _ _

theorem hands_packArguments (d : MethodDescriptor) (slot : UInt16) (st : List Source) :
    Hands (Build.packArguments d slot) st (.other :: st) [] :=
  (hands_pushInt _ st).before fun _ => (hands_newObjectArray _ st).before fun _ =>
    hands_packEach _ _ _ _

theorem hands_makeHelper (owner helper : ClassName) (isStatic : Bool) {st : List Source}
    (settled : st.all Source.isSettled) :
    Hands (makeHelper owner helper isStatic) st (.other :: st) [] := by
  refine (hands_newObject helper st).before fun _ => (hands_dup _ st).before fun _ => ?_
  cases isStatic with
  | true => exact hands_construct helper _ [] rfl settled
  | false =>
    exact (hands_loadThis _).before fun _ => hands_construct helper _ [.other] rfl settled

theorem hands_returnObject (t : JType) : Hands (returnObject t) [.other] [] [] := by
  have returned := hands_returnValue t []
  unfold returnObject
  unfold answerSources at returned
  split at returned
  · rename_i void
    rw [if_pos void]
    exact (hands_popObject _ _).before fun _ => returned
  · rename_i value
    rw [if_neg value]
    exact (hands_unbox t _).before fun _ => returned

/-! ## Wrappers and added methods -/

theorem PlannedIntercept.hands_wrapperCode (owner : ClassName) (i : PlannedIntercept) :
    Hands (i.wrapperCode owner) [] [] [⟨"intercept", .text i.token⟩] :=
  (hands_pushString i.token []).before fun _ => (hands_loadReceiver _ _).before fun _ =>
    (hands_packArguments _ _ _).before fun _ => (hands_makeHelper _ _ _ rfl).before fun _ =>
      (hands_bridge "intercept" spelled_interceptDescriptor rfl [.other, .other, .other] _ []
        rfl).bind fun _ => hands_returnObject _

theorem spelled_map : mapType.Spelled :=
  .element (.reference (ClassName.spelled_of_all (by decide) (by decide)))

theorem spelled_putDescriptor : putDescriptor.Spelled where
  params t mem := by
    simp only [putDescriptor, List.mem_cons, List.not_mem_nil, or_false, or_self] at mem
    exact mem ▸ spelled_object
  ret := .inr spelled_object

theorem spelled_invokeAddedDescriptor : invokeAddedDescriptor.Spelled where
  params t mem := by
    simp only [invokeAddedDescriptor, List.mem_cons, List.not_mem_nil, or_false, or_self] at mem
    rcases mem with rfl | rfl | rfl | rfl
    · exact spelled_string
    · exact spelled_object
    · exact spelled_objects
    · exact spelled_map
  ret := .inr spelled_object

theorem hands_putAccessor (owner : ClassName) (helpers : List Helper) (slot : UInt16)
    (accessor : String × ClassName) : Hands (putAccessor owner helpers slot accessor) [] [] [] :=
  (hands_load _ _ _).before fun _ => (hands_pushString _ _).before fun _ =>
    (hands_makeHelper _ _ _ rfl).before fun _ =>
      (hands_invokeInterface _ "put" spelled_putDescriptor [.other, .text _, .other] [] rfl).before
        fun _ => hands_popObject _ _

theorem hands_makeAccessors (owner : ClassName) (helpers : List Helper) (slot : UInt16)
    (accessors : List (String × ClassName)) :
    Hands (makeAccessors owner helpers slot accessors) [] [] [] := by
  refine (hands_newObject _ _).before fun _ => (hands_dup _ _).before fun _ =>
    (hands_construct _ _ [] rfl rfl).before fun _ => (hands_store _ _ _ _).before fun _ => ?_
  induction accessors with
  | nil => exact .pure _ _
  | cons accessor accessors ih => exact (hands_putAccessor owner helpers slot _).before fun _ => ih

theorem PlannedMethod.hands_code (owner : ClassName) (helpers : List Helper) (m : PlannedMethod) :
    Hands (m.code owner helpers) [] [] [⟨"invokeAdded", .text m.token⟩] :=
  (hands_allocateLocal _ _).before fun _ => (hands_allocateLocal _ _).before fun _ =>
    (hands_makeAccessors _ _ _ _).before fun _ => (hands_makeAccessors _ _ _ _).before fun _ =>
      (hands_pushString m.token []).before fun _ => (hands_loadReceiver _ _).before fun _ =>
        (hands_packArguments _ _ _).before fun _ => (hands_load _ _ _).before fun _ =>
          (hands_load _ _ _).before fun _ =>
            (hands_bridge "invokeAdded" spelled_invokeAddedDescriptor rfl
              [.other, .other, .other, .other] _ [] rfl).bind fun _ => hands_returnObject _

/-! ## First values of fields -/

/-- What code that gives the field its first value hands over. -/
def PlannedField.handing? (owner : ClassName) (f : PlannedField) : Option Handing :=
  f.init.holder?.map fun holder =>
    ⟨"initialValue", .field ⟨owner.internal, holder, JType.string.descriptor⟩⟩

theorem spelled_initialValueDescriptor : initialValueDescriptor.Spelled where
  params t mem := by
    simp only [initialValueDescriptor, List.mem_cons, List.not_mem_nil, or_false] at mem
    rcases mem with rfl | rfl
    · exact spelled_string
    · exact spelled_object
  ret := .inr spelled_object

/-- On whatever stack, the step hands that over. -/
def HandsAnywhere (x : Build Unit) (hs : List Handing) : Prop := ∀ st, ∃ st', Hands x st st' hs

/-- What is asked of the bridge is stored above the object, if there is one. -/
theorem PlannedField.hands_put (owner : ClassName) (f : PlannedField) (s : Source)
    (st : List Source) :
    Hands (f.put owner) (s :: ((if f.isStatic then [] else [.other]) ++ st)) st [] := by
  unfold PlannedField.put
  cases f.isStatic with
  | true => exact hands_putStatic _ _ _ _ _
  | false => exact hands_putField _ _ _ _ _ _

theorem PlannedField.hands_assign (owner : ClassName) (f : PlannedField) :
    HandsAnywhere (f.assign owner) (f.handing? owner).toList := by
  intro st
  unfold PlannedField.assign PlannedField.handing?
  cases f.init with
  | default => exact ⟨st, .pure _ _⟩
  | constant value => exact ⟨st, .pure _ _⟩
  | store value =>
    cases static : f.isStatic with
    | true =>
      have put := f.hands_put owner (literalSource value) (.other :: st)
      rw [static] at put
      exact ⟨_, (hands_loadThis st).before fun _ => (hands_pushLiteral value _).before fun _ => put⟩
    | false =>
      have put := f.hands_put owner (literalSource value) st
      rw [static] at put
      exact ⟨_, (hands_loadThis st).before fun _ => (hands_pushLiteral value _).before fun _ => put⟩
  | callback token holder =>
    have stored := f.hands_put owner .other st
    have asked (token : Source) (st : List Source) :=
      hands_bridge "initialValue" spelled_initialValueDescriptor rfl [.other] token st rfl
    refine ⟨st, ?_⟩
    cases static : f.isStatic with
    | true =>
      rw [static] at stored
      exact (hands_getStatic _ _ _ st).before fun _ => (hands_pushNull _).before fun _ =>
        (asked _ st).bind fun _ => (hands_unbox _ _).before fun _ => stored
    | false =>
      rw [static] at stored
      exact (hands_loadThis st).before fun _ => (hands_getStatic _ _ _ _).before fun _ =>
        (hands_loadThis _).before fun _ => (asked _ _).bind fun _ =>
          (hands_unbox _ _).before fun _ => stored

theorem hands_assignAll (owner : ClassName) (fields : List PlannedField) :
    HandsAnywhere (assignAll owner fields) (fields.filterMap (·.handing? owner)) := by
  intro st
  induction fields generalizing st with
  | nil => exact ⟨st, .pure _ _⟩
  | cons f fields ih =>
    obtain ⟨st₁, first⟩ := f.hands_assign owner st
    obtain ⟨st₂, rest⟩ := ih st₁
    refine ⟨st₂, ?_⟩
    have whole := first.bind fun _ => rest
    rw [List.filterMap_cons]
    cases handing : f.handing? owner with
    | none =>
      rw [handing] at whole
      exact whole
    | some h =>
      rw [handing] at whole
      exact whole

theorem trace_nops (p : Pool) (n : Nat) (st : List Source) :
    trace p (List.replicate n ⟨.nop, .none⟩) st = some (st, []) := by
  induction n with
  | zero => rfl
  | succ n ih =>
    show trace p ([⟨.nop, .none⟩] ++ List.replicate n ⟨.nop, .none⟩) st = _
    exact trace_append (trace_single (e := .replace 0 []) rfl (apply_replace [] [] st rfl)) ih

/-- The step writes the same, whatever stack it is for. -/
theorem HandsAnywhere.wrote {x : Build Unit} {hs : List Handing} {b b' : Builder}
    (h : HandsAnywhere x hs) (ran : x b = .ok () b') : ∃ ops, b.Wrote b' ops ∧ (b.pool.Sound →
      ∀ q, b'.pool.Extends q → q.size < 65536 → ∀ st, ∃ st', trace q ops st = some (st', hs)) := by
  obtain ⟨_, hands⟩ := h []
  obtain ⟨ops, wrote, -⟩ := hands b () b' ran
  refine ⟨ops, wrote, fun sound q grown small st => ?_⟩
  obtain ⟨st', hands⟩ := h st
  obtain ⟨ops', wrote', traced⟩ := hands b () b' ran
  have same : ops' = ops := by
    have written := wrote'.code.symm.trans wrote.code
    have written := List.reverse_inj.1 (List.append_cancel_right written)
    exact (List.map_injective_iff.2 fun i j => Item.op.inj) written
  exact ⟨st', same ▸ traced sound q grown small⟩

end Weave

/-! ## Methods that are read back -/

namespace Member

/-- The code of the method hands that over, from its start to its end. -/
def HandsOver (m : Member) (p : Pool) (hs : List Weave.Handing) : Prop :=
  ∃ b st, m.body? p = some b ∧ Weave.trace p b.instructions [] = some (st, hs)

/-- A part of the code of the method hands that over, whatever is on the stack before it. -/
def Includes (m : Member) (p : Pool) (hs : List Weave.Handing) : Prop :=
  ∃ b before part after, m.body? p = some b ∧ b.instructions = before ++ (part ++ after) ∧
    ∀ st, ∃ st', Weave.trace p part st = some (st', hs)

theorem body?_eq_some {m : Member} {c : CodeAttribute} {b : Body} (coded : m.code? = some c)
    (read : Body.ofCode c p = .ok b) : m.body? p = some b := by
  rw [body?, coded, Option.bind_some, read]
  rfl

end Member

/-- Code that was built is read back as what was written. -/
theorem CodeAttribute.IsBuilt.reread {c : CodeAttribute} {locals : UInt16} {code : Build Unit}
    (h : c.IsBuilt locals code q) (small : q.size < 65536) :
    ∃ p b', p.Sound ∧ code (.start p locals) = .ok () b' ∧ b'.pool.Extends q ∧
      ∀ ops, (Builder.start p locals).Wrote b' ops →
        ∃ b, Body.ofCode c q = .ok b ∧ b.instructions = ops := by
  obtain ⟨body, p, p', r, sound, built, written, keeps⟩ := h
  obtain ⟨made, ran, rfl, rfl⟩ := Body.build_eq_ok built
  refine ⟨p, made, sound, ran, (Body.toCode_eq_ok written).1.keeps.trans keeps,
    fun ops wrote => ?_⟩
  obtain ⟨-, b, read, instructions, -⟩ := Body.ofCode_of_straight written wrote.finish
    (by simp [Builder.finish, wrote.handlers, Builder.start]) (wrote.straight sound)
    (wrote.pool.sound sound) keeps small
  exact ⟨b, read, instructions⟩

open Weave in
theorem CodeAttribute.IsBuilt.traced {c : CodeAttribute} {locals : UInt16} {code : Build Unit}
    {st : List Source} {hs : List Handing} (h : c.IsBuilt locals code q)
    (hands : Hands code [] st hs) (small : q.size < 65536) :
    ∃ b, Body.ofCode c q = .ok b ∧ trace q b.instructions [] = some (st, hs) := by
  obtain ⟨p, made, sound, ran, grown, reread⟩ := h.reread small
  obtain ⟨ops, wrote, traced⟩ := hands _ _ _ ran
  obtain ⟨b, read, instructions⟩ := reread ops wrote
  exact ⟨b, read, instructions ▸ traced sound q grown small⟩

open Weave in
theorem CodeAttribute.IsBuilt.included {c : CodeAttribute} {locals : UInt16} {x y : Build Unit}
    {hs : List Handing} (h : c.IsBuilt locals (x >>= fun _ => y) q) (hands : HandsAnywhere x hs)
    (straight : y.Straight) (small : q.size < 65536) :
    ∃ b part after, Body.ofCode c q = .ok b ∧ b.instructions = part ++ after ∧
      ∀ st, ∃ st', trace q part st = some (st', hs) := by
  obtain ⟨p, made, sound, ran, grown, reread⟩ := h.reread small
  obtain ⟨⟨⟩, b', first, second⟩ := step_bind_eq_ok.1 ran
  obtain ⟨ops, wrote, traced⟩ := hands.wrote first
  obtain ⟨ops', wrote'⟩ := straight _ _ _ second
  obtain ⟨b, read, instructions⟩ := reread _ (wrote.trans wrote')
  exact ⟨b, ops, ops', read, instructions, traced sound q (wrote'.pool.keeps.trans grown) small⟩

namespace Weave

/-! ## Inserted assignments -/

/-- The code, filled up with instructions that do nothing. -/
def padded (ops : List Instruction) (n : Nat) : List Instruction :=
  ops ++ List.replicate n ⟨.nop, .none⟩

theorem straight_padded {ops : List Instruction} (straight : ∀ i ∈ ops, i.Straight p) (n : Nat) :
    ∀ i ∈ padded ops n, i.Straight p := by
  intro i mem
  rcases List.mem_append.1 mem with mem | mem
  · exact straight i mem
  · rw [List.eq_of_mem_replicate mem]
    exact Build.straight_plain (by decide) (by decide) rfl rfl rfl

/-- The code that assigns fields is what is written for them, filled up. -/
theorem assignment_wrote {fields : List PlannedField} {locals : UInt16} {f : Fragment}
    (h : assignment owner fields locals p = .ok f q) :
    ∃ b n, assignAll owner fields (.start p locals) = .ok () b ∧ b.pool = q ∧
      ∀ ops, (Builder.start p locals).Wrote b ops → f.body.handlers = [] ∧
        f.body.code = (padded ops n).map .op := by
  obtain ⟨body, p', built, h⟩ := step_bind_eq_ok.1 h
  obtain ⟨offsets, p'', lifted, h⟩ := step_bind_eq_ok.1 h
  obtain ⟨-, rfl⟩ := edit_lift_eq_ok.1 lifted
  obtain ⟨rfl, rfl⟩ := step_pure_eq_ok.1 h
  obtain ⟨b, ran, rfl, rfl⟩ := Body.build_eq_ok built
  refine ⟨b, (4 - offsets.getLast?.getD 0 % 4) % 4, ran, rfl, fun ops wrote => ⟨?_, ?_⟩⟩
  · simp [Builder.finish, wrote.handlers, Builder.start]
  · rw [padded, List.map_append, List.map_replicate, ← wrote.finish]

/-- A stack map tells nothing about the body. -/
theorem insertCode_writes {code c : CodeAttribute} {body : Body} {position : Nat} {f : Fragment}
    (h : insertCode code body position f p = .ok c q) : ∃ spliced,
      (body.splice position f.body).toCode p = .ok spliced q ∧
        ∀ r, Body.ofCode c r = Body.ofCode spliced r := by
  obtain ⟨spliced, coded, rfl | ⟨name, data, moved, -, rfl⟩⟩ := insertCode_steps h
  · exact ⟨c, coded, fun _ => rfl⟩
  · exact ⟨spliced, coded, fun r => Body.ofCode_append_raw spliced name moved r⟩

/-- What is written for fields is read back, between the instructions of the body. -/
theorem insertAssignment_reread {fields : List PlannedField} {code c : CodeAttribute}
    {body : Body} {position : Nat} (h : insertAssignment owner fields code body position p = .ok c q)
    (sound : p.Sound) (read : Body.ofCode code p = .ok body) (short : code.code.length ≤ 65535)
    (grown : q.Extends r) (small : r.size < 65536) :
    ∃ made n, assignAll owner fields (.start p body.maxLocals) = .ok () made ∧
      made.pool.Extends r ∧ ∀ ops, (Builder.start p body.maxLocals).Wrote made ops →
        ∃ g b, Body.ofCode c r = .ok b ∧ b.instructions =
          (body.instructionsBefore position).map (·.mapLabels g) ++
            (padded ops n ++ (body.instructionsFrom position).map (·.mapLabels g)) := by
  obtain ⟨f, p', assigned, h⟩ := step_bind_eq_ok.1 h
  obtain ⟨made, n, ran, rfl, code_f⟩ := assignment_wrote assigned
  obtain ⟨spliced, written, same⟩ := insertCode_writes h
  have later := (Body.toCode_eq_ok written).1.keeps.trans grown
  refine ⟨made, n, ran, later, fun ops wrote => ?_⟩
  obtain ⟨handlers, code_f⟩ := code_f ops wrote
  have straight := straight_padded (wrote.straight sound) n
  have shaped := Body.shaped_of_ofCode (ofCode_mono read wrote.pool.keeps) short
  obtain ⟨g, b, read', instructions⟩ := Body.ofCode_splice shaped code_f handlers
    (fun i mem => (straight i mem).shaped) (fun i mem => (straight i mem).targets)
    (fun i mem => (straight i mem).constantInRange (wrote.pool.sound sound) (.refl _)
      (Nat.lt_of_le_of_lt later.size_le small)) written
  exact ⟨g, b, (same r).trans (ofCode_mono read' grown), instructions⟩

/-- Inserted assignments hand over what the fields are asked with. -/
theorem insertAssignment_included {fields : List PlannedField} {code c : CodeAttribute}
    {body : Body} {position : Nat} (h : insertAssignment owner fields code body position p = .ok c q)
    (sound : p.Sound) (read : Body.ofCode code p = .ok body) (short : code.code.length ≤ 65535)
    (grown : q.Extends r) (small : r.size < 65536) :
    ∃ b before part after, Body.ofCode c r = .ok b ∧ b.instructions = before ++ (part ++ after) ∧
      ∀ st, ∃ st', trace r part st = some (st', fields.filterMap (·.handing? owner)) := by
  obtain ⟨made, n, ran, later, reread⟩ := insertAssignment_reread h sound read short grown small
  obtain ⟨ops, wrote, traced⟩ := (hands_assignAll owner fields).wrote ran
  obtain ⟨g, b, read', instructions⟩ := reread ops wrote
  refine ⟨b, _, padded ops n, _, read', instructions, fun st => ?_⟩
  obtain ⟨st', first⟩ := traced sound r later small st
  exact ⟨st', by simpa [padded] using trace_append first (trace_nops r n st')⟩

end Weave

end Weft
