import Weft.Proofs.ClassFile.Spellings
import Weft.Proofs.Signature.Printing
import Weft.Proofs.Site.Parameters
import Weft.Proofs.Text.PlainForms
import Weft.Proofs.Weave.Delegation

/-!
# Slots of parameters

The slot of a parameter is the sum of the sizes of those before it, and of the receiver. The sums
are made in sixteen bits, where the names of parameters are looked for and where code loads
arguments or packs them, and the sum of all is how many slots a body starts with. They are right as
long as all parameters take less than 65536 slots with the receiver. The descriptor of a method is
one text of the pool, so that the sums go around at most once; there are descriptors for which they
do.
-/

namespace Weft

open Machine Weave

variable {σ : Type}

/-! ## Slots -/

/-- The slot of each value if the first is at `slot`. -/
def runningSlots : List JType → UInt16 → List UInt16
  | [], _ => []
  | t :: ts, slot => slot :: runningSlots ts (slot + t.slots)

theorem runningSlots_getElem? {ts : List JType} {slot : UInt16} {i : Nat} (within : i < ts.length) :
    (runningSlots ts slot)[i]? = some (slot + UInt16.ofNat (slotsOf (ts.take i))) := by
  induction ts generalizing slot i with
  | nil => cases within
  | cons t ts ih =>
    cases i with
    | zero => exact congrArg some (UInt16.add_zero slot).symm
    | succ i =>
      rw [runningSlots, List.getElem?_cons_succ, ih (Nat.lt_of_succ_lt_succ within),
        List.take_succ_cons, slotsOf, UInt16.ofNat_add, UInt16.ofNat_toNat, UInt16.add_assoc]

theorem MethodSite.namesAtEntry_eq (p : Pool) (code : CodeAttribute) (ts : List JType)
    (slot : UInt16) :
    namesAtEntry p code ts slot =
      (runningSlots ts slot).map fun slot => nameAtEntry? p code slot := by
  induction ts generalizing slot with
  | nil => rfl
  | cons t ts ih => exact congrArg (List.cons _) (ih _)

/-- Sums are made modulo 65536. -/
theorem toNat_add_ofNat (slot : UInt16) (n : Nat) :
    (slot + UInt16.ofNat n).toNat = (slot.toNat + n) % 65536 := by
  rw [UInt16.toNat_add, UInt16.toNat_ofNat']
  exact Nat.add_mod_mod _ _ _

namespace Build

theorem loadEach_eq (ts : List JType) (slot : UInt16) :
    loadEach ts slot = (ts.zip (runningSlots ts slot)).forM fun (t, slot) => load t slot := by
  induction ts generalizing slot with
  | nil => rfl
  | cons t ts ih =>
    rw [loadEach, ih]
    rfl

/-- Stores the boxed value of a slot in an array at an index. -/
def packItem (t : JType) (slot : UInt16) (index : Nat) : Build Unit := do
  dup
  pushInt (Int32.ofNat index)
  load t slot
  box t
  arrayStore

theorem packEach_eq (ts : List JType) (index : Nat) (slot : UInt16) :
    packEach ts index slot = ((ts.zip (runningSlots ts slot)).zipIdx index).forM
      fun ((t, slot), i) => packItem t slot i := by
  induction ts generalizing index slot with
  | nil => rfl
  | cons t ts ih =>
    have first : packEach (t :: ts) index slot = (do
        packItem t slot index
        packEach ts (index + 1) (slot + t.slots)) := by
      simp only [packEach, packItem, bind_assoc]
    rw [first, ih]
    rfl

end Build

/-! ## Texts of a pool -/

theorem Pool.Spelled.length_lt {p : Pool} {bs : Bytes} (h : p.Spelled .accepted bs) {text : String}
    (mem : .utf8 text ∈ p.entries) : text.toList.length < 65536 := by
  obtain ⟨parts, spelled, -⟩ := h.parts
  obtain ⟨part, -, encoded, decoded, short, -⟩ :=
    forall₂_mem_left spelled (Array.mem_toList_iff.2 mem)
  exact Nat.lt_of_le_of_lt (Text.length_le_of_decodeModified decoded) short

/-! ## The slots of a method -/

/-- The slots that values of the types take, with the receiver before them. -/
def slotsWith (isStatic : Bool) (ts : List JType) : Nat :=
  (if isStatic then 0 else 1) + slotsOf ts

theorem toNat_firstSlot_add (isStatic : Bool) (ts : List JType) :
    (firstSlot isStatic + UInt16.ofNat (slotsOf ts)).toNat = slotsWith isStatic ts % 65536 := by
  rw [toNat_add_ofNat]
  cases isStatic <;> rfl

theorem slotsOf_append (ts us : List JType) : slotsOf (ts ++ us) = slotsOf ts + slotsOf us := by
  induction ts with
  | nil => exact (Nat.zero_add _).symm
  | cons t ts ih => rw [List.cons_append, slotsOf, slotsOf, ih, Nat.add_assoc]

theorem slotsWith_take_le (isStatic : Bool) (ts : List JType) (i : Nat) :
    slotsWith isStatic (ts.take i) ≤ slotsWith isStatic ts := by
  have parts := slotsOf_append (ts.take i) (ts.drop i)
  rw [List.take_append_drop] at parts
  exact Nat.add_le_add_left (parts ▸ Nat.le_add_right _ _) _

namespace MethodDescriptor

/-- The sums of slots that are made of a descriptor have the values that they stand for. -/
structure SlotsExact (d : MethodDescriptor) (isStatic : Bool) : Prop where
  params : d.paramSlots.toNat = slotsOf d.params
  entry : (entrySlots d isStatic).toNat = slotsWith isStatic d.params
  running : ∀ i < d.params.length, ∃ slot,
    (runningSlots d.params (firstSlot isStatic))[i]? = some slot ∧
      slot.toNat = slotsWith isStatic (d.params.take i)

theorem toNat_entrySlots_mod (d : MethodDescriptor) (isStatic : Bool) :
    (entrySlots d isStatic).toNat = slotsWith isStatic d.params % 65536 := by
  rw [entrySlots, UInt16.add_comm, paramSlots_eq]
  exact toNat_firstSlot_add isStatic d.params

/-- The sums are right just if all slots, with that of the receiver, can be counted in sixteen
bits. -/
theorem slotsExact_iff {d : MethodDescriptor} {isStatic : Bool} :
    d.SlotsExact isStatic ↔ slotsWith isStatic d.params < 65536 := by
  constructor
  · intro right
    rw [← right.entry]
    exact UInt16.toNat_lt _
  · intro few
    have counted : slotsOf d.params ≤ slotsWith isStatic d.params := Nat.le_add_left _ _
    refine ⟨toNat_paramSlots (Nat.lt_of_le_of_lt counted few), ?_, fun i within =>
      ⟨_, runningSlots_getElem? within, ?_⟩⟩
    · rw [toNat_entrySlots_mod, Nat.mod_eq_of_lt few]
    · rw [toNat_firstSlot_add]
      exact Nat.mod_eq_of_lt (Nat.lt_of_le_of_lt (slotsWith_take_le isStatic d.params i) few)

end MethodDescriptor

namespace MethodSite

variable {m : MethodSite}

/-- A method that does not declare names has those of the variables in the slots of parameters. -/
theorem parameterNames_of_code {code : CodeAttribute} (undeclared : m.declaredParameters? = none)
    (coded : m.member.code? = some code) : m.parameterNames =
      (runningSlots m.descriptor.params (firstSlot m.isStatic)).map
        fun slot => nameAtEntry? m.owner.pool code slot := by
  rw [parameterNames_eq, undeclared, coded]
  exact namesAtEntry_eq _ _ _ _

end MethodSite

/-! ## Methods of an image -/

/-- The descriptor of a method in an image is one text, so that the slots of its parameters are few
enough to go around once at most. -/
theorem ClassSite.slotsWith_le {options : DecodeOptions} {decoding : Nat} {image : Bytes}
    {s : ClassSite} (accepted : ofBytes options decoding image = .ok s) {m : MethodSite}
    (mem : m ∈ s.methods) (isStatic : Bool) : slotsWith isStatic m.descriptor.params ≤ 131065 := by
  obtain ⟨c, decoded, lists⟩ := lists_of_ofBytes accepted
  obtain ⟨n, -, found, typed⟩ := mem_methods mem
  rw [lists.classFile] at found
  obtain ⟨t, typed', -, text, read, parsed⟩ := forall₂_getElem? lists.methods found
  cases typed.symm.trans typed'
  obtain ⟨pool, -, -, -, -, spelled, -⟩ := (ClassFile.reproduces_iff decoded).1.parts
  have short := spelled.length_lt (Array.mem_of_getElem? (Pool.get_eq_ok (Pool.utf8_eq_ok read)).1)
  have params : m.descriptor.params.length + 3 ≤ text.toList.length :=
    MethodDescriptor.length_params_of_ofText parsed
  have slots : slotsOf m.descriptor.params ≤ 2 * m.descriptor.params.length :=
    (length_le_slotsOf (MethodDescriptor.spelled_of_ofText parsed).values).2
  have receiver : (if isStatic then 0 else 1) ≤ 1 := by cases isStatic <;> decide
  unfold slotsWith
  omega

/-- Where a wrapper was written its sums are right: it takes more bytes than code can have to pack
as many arguments as make them go around. -/
theorem Weave.PlannedIntercept.slotsExact_of_isBuilt {env : Env σ} {owner : ClassName}
    {i : PlannedIntercept} {wrapper : CodeAttribute} {locals : UInt16} {c : Constructor} {t : Pool}
    (built : wrapper.IsBuilt locals (i.wrapperCode owner) t) (small : t.size < 65536)
    (performs : Build.Performs env (i.wrapperCode owner) (wrapperActions i c))
    (values : ∀ t ∈ i.site.descriptor.params, t.isVoid = false) :
    i.site.descriptor.SlotsExact i.site.isStatic := by
  have few := few_of_isBuilt built small performs values
  have receiver : (if i.site.isStatic then 0 else 1) ≤ 1 := by cases i.site.isStatic <;> decide
  rw [MethodDescriptor.slotsExact_iff]
  unfold slotsWith
  omega

/-! ## Sums that go around -/

/-- A method of so many parameters of two slots. -/
def longs (n : Nat) : MethodDescriptor := ⟨List.replicate n (.primitive .long), .void⟩

theorem spelled_longs (n : Nat) : (longs n).Spelled where
  params t mem := by
    rw [List.eq_of_mem_replicate mem]
    exact .element (.primitive .long)
  ret := .inl rfl

theorem slotsOf_longs (n : Nat) : slotsOf (longs n).params = 2 * n := by
  induction n with
  | zero => rfl
  | succ n ih =>
    show 2 + slotsOf (longs n).params = _
    rw [ih]
    omega

/-- A descriptor that is read, of which the sum of the slots is zero. -/
theorem not_slotsExact_longs (isStatic : Bool) :
    MethodDescriptor.ofText (longs 32768).descriptor = .ok (longs 32768) ∧
      (longs 32768).paramSlots = 0 ∧ ¬ (longs 32768).SlotsExact isStatic := by
  refine ⟨MethodDescriptor.ofText_descriptor (spelled_longs _), ?_, ?_⟩
  · rw [MethodDescriptor.paramSlots_eq, slotsOf_longs]
    rfl
  · rw [MethodDescriptor.slotsExact_iff, slotsWith, slotsOf_longs]
    omega

end Weft
