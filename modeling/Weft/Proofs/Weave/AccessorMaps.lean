import Weft.Proofs.Weave.Handing

/-!
# The maps of an added method

The code of an added method makes two maps and puts helpers into them before it calls the bridge.
Here the objects that it makes are followed on a heap of their own: a map holds under each text what
was put there last. The code leads to the heap that a plain function of the accessors computes, and
in that heap each name is bound to the helper of the last accessor of the name.
-/

namespace Weft.Weave

open Machine (classAt? memberAt?)

/-! ## Objects -/

/-- What a place of the stack or a slot holds. -/
inductive Content where
  | text (text : String)
  /-- The object that was made behind so many others. -/
  | made (n : Nat)
  | other
  deriving DecidableEq

/-- An object that code has made. -/
inductive Made where
  /-- Its constructor is still to be called. -/
  | raw (className : String)
  | object (className : String)
  /-- A map with what was put into it, the last first. -/
  | map (entries : List (String × Content))

/-- The object once its constructor was called. -/
def Made.constructed (className : String) : Made :=
  if className = hashMapClass.internal then .map [] else .object className

/-- The object with a value under a key, if it is a map. -/
def Made.put (key : String) (value : Content) : Made → Made
  | map entries => map ((key, value) :: entries)
  | o => o

/-- What the stack and the slots hold, and what was made. -/
structure Making where
  stack : List Content
  slots : UInt16 → Content
  objects : List Made

namespace Making

/-- Nothing is on the stack and nothing was made. -/
def start : Making := ⟨[], fun _ => .other, []⟩

/-- What is there is no object whose constructor is still to be called. -/
def settled (s : Making) : Content → Bool
  | .made n => match s.objects[n]? with
    | some (.raw _) => false
    | _ => true
  | _ => true

/-- The class of the object under a key of a map. -/
def bound? (s : Making) (map : Content) (key : String) : Option String :=
  match map with
  | .made n => match s.objects[n]? with
    | some (.map entries) => match entries.lookup key with
      | some (.made k) => match s.objects[k]? with
        | some (.object className) => some className
        | _ => none
      | _ => none
    | _ => none
  | _ => none

end Making

/-! ## Code -/

/-- What an instruction does to objects. -/
inductive Move where
  | load (slot : UInt16)
  | store (slot : UInt16)
  | make (className : String)
  | construct
  /-- Puts a value under a text into a map. -/
  | put
  | copy
  | replace (pops : Nat) (pushes : List Content)

/-- What is behind a move. -/
def Move.apply : Move → Making → Option Making
  | load slot, s => some { s with stack := s.slots slot :: s.stack }
  | store slot, s => match s.stack with
    | c :: stack => some { s with stack, slots := fun n => if n = slot then c else s.slots n }
    | [] => none
  | make name, s =>
    some { s with stack := .made s.objects.length :: s.stack, objects := s.objects ++ [.raw name] }
  -- the arguments of a constructor have been constructed, the object below them has not
  | construct, s => match s.stack.dropWhile s.settled with
    | .made n :: stack => match s.objects[n]? with
      | some (.raw name) => some { s with stack, objects := s.objects.set n (.constructed name) }
      | _ => none
    | _ => none
  | put, s => match s.stack with
    | value :: .text key :: .made n :: stack =>
      some { s with stack := .other :: stack, objects := s.objects.modify n (.put key value) }
    | _ => none
  | copy, s => s.stack.head?.map fun c => { s with stack := c :: s.stack }
  | replace pops pushes, s =>
    if pops ≤ s.stack.length then some { s with stack := pushes ++ s.stack.drop pops } else none

/-- The content of a source. -/
def Source.content : Source → Content
  | text s => .text s
  | _ => .other

/-- The move of an effect that makes and hands over nothing. -/
def Effect.move? : Effect → Option Move
  | replace pops pushes => some (.replace pops (pushes.map Source.content))
  | copy => some .copy
  | construct => some .construct
  | make | hand .. => none

section Moves

variable (p : Pool)

/-- The call puts something into a map. -/
def isPut (index : UInt16) : Bool :=
  match p.get index with
  | .ok (.interfaceMethodRef owner nat) =>
    memberAt? p owner nat = some (mapClass.internal, "put", putDescriptor.descriptor)
  | _ => false

/-- The move of an instruction. -/
def move? (i : Instruction) : Option Move :=
  match i.operand with
  | .local slot =>
    if i.opcode = .aload then some (.load slot)
    else if i.opcode = .astore then some (.store slot)
    else if i.opcode ∈ [.iload, .lload, .fload, .dload] then some (.replace 0 [.other])
    else none
  | .constant index =>
    if i.opcode = .newObject then (classAt? p index).map .make
    else (effect? p i).bind Effect.move?
  | .invokeInterface index _ => if isPut p index then some .put else (effect? p i).bind Effect.move?
  | _ => (effect? p i).bind Effect.move?

/-- What is behind an instruction. -/
def advance (s : Making) (i : Instruction) : Option Making :=
  (move? p i).bind fun m => m.apply s

end Moves

/-! ## Steps of building -/

section Steps

variable {α β : Type} {s s' s'' : Making}

/-- What the step writes leads from one state of the objects to another, in every pool that grows
out of that of the builder. -/
def Advances (x : Build α) (s s' : Making) : Prop :=
  ∀ b a b', x b = .ok a b' → ∃ ops, b.Wrote b' ops ∧ (b.pool.Sound → ∀ q, b'.pool.Extends q →
    q.size < 65536 → ops.foldlM (advance q) s = some s')

namespace Advances

theorem pure (a : α) (s : Making) : Advances (Pure.pure a : Build α) s s := by
  intro b a' b' h
  obtain ⟨-, rfl⟩ := step_pure_eq_ok.1 h
  exact ⟨[], .refl b, fun _ _ _ _ => rfl⟩

theorem bind {x : Build α} {f : α → Build β} (hx : Advances x s s')
    (hf : ∀ a, Advances (f a) s' s'') : Advances (x >>= f) s s'' := by
  intro b c b'' h
  obtain ⟨a, b', first, second⟩ := step_bind_eq_ok.1 h
  obtain ⟨ops, wrote, advanced⟩ := hx b a b' first
  obtain ⟨ops', wrote', advanced'⟩ := hf a b' c b'' second
  refine ⟨ops ++ ops', wrote.trans wrote', fun sound q grown small => ?_⟩
  rw [List.foldlM_append, advanced sound q (wrote'.pool.keeps.trans grown) small]
  exact advanced' (wrote.pool.sound sound) q grown small

/-- A step that writes one instruction. -/
theorem single {x : Build Unit} {m : Move} {P : Pool → Instruction → Prop}
    (wrote : ∀ b b', x b = .ok () b' → ∃ i, b.Wrote b' [i] ∧ (b.pool.Sound → P b'.pool i))
    (move : ∀ p q i, P p i → p.Extends q → q.size < 65536 → move? q i = some m)
    (applied : m.apply s = some s') : Advances x s s' := by
  intro b _ b' h
  obtain ⟨i, wrote, held⟩ := wrote b b' h
  refine ⟨[i], wrote, fun sound q grown small => ?_⟩
  rw [List.foldlM_cons, advance, move _ q i (held sound) grown small, Option.bind_some, applied]
  rfl

/-- A step that writes an instruction without a constant. -/
theorem plain {x : Build Unit} {m : Move} {i : Instruction}
    (wrote : ∀ b b', x b = .ok () b' → b.Wrote b' [i]) (move : ∀ q, move? q i = some m)
    (applied : m.apply s = some s') : Advances x s s' :=
  .single (P := fun _ j => j = i) (fun b b' h => ⟨i, wrote b b' h, fun _ => rfl⟩)
    (fun _ q _ same _ _ => same ▸ move q) applied

/-- A step that writes an instruction with a constant. -/
theorem constant {x : Build Unit} {op : Opcode} {m : Move} {P : Pool → UInt16 → Prop}
    (wrote : ∀ b b', x b = .ok () b' →
      ∃ index, b.Wrote b' [⟨op, .constant index⟩] ∧ (b.pool.Sound → P b'.pool index))
    (move : ∀ p q index, P p index → p.Extends q → q.size < 65536 →
      move? q ⟨op, .constant index⟩ = some m)
    (applied : m.apply s = some s') : Advances x s s' :=
  .single (P := fun p i => ∃ index, i = ⟨op, .constant index⟩ ∧ P p index)
    (fun b b' h =>
      have ⟨index, wrote, held⟩ := wrote b b' h
      ⟨_, wrote, fun sound => ⟨index, rfl, held sound⟩⟩)
    (fun p q _ ⟨index, same, held⟩ grown small => same ▸ move p q index held grown small) applied

end Advances

/-- A value is put on the stack. -/
def Making.push (c : Content) (s : Making) : Making := { s with stack := c :: s.stack }

theorem apply_replace_none (c : Content) (s : Making) :
    (Move.replace 0 [c]).apply s = some (s.push c) := by
  simp [Move.apply, Making.push]

theorem advances_pushNull (s : Making) : Advances Build.pushNull s (s.push .other) :=
  .plain (fun _ _ h => Build.pushNull_wrote h) (fun _ => rfl) (apply_replace_none .other s)

theorem advances_loadThis (s : Making) : Advances Build.loadThis s (s.push .other) :=
  .plain (fun _ _ h => Build.loadThis_wrote h) (fun _ => rfl) (apply_replace_none .other s)

theorem advances_dup (c : Content) (s : Making) :
    Advances Build.dup (s.push c) ((s.push c).push c) :=
  .plain (fun _ _ h => Build.dup_wrote h) (fun _ => rfl) rfl

theorem advances_popObject (c : Content) (s : Making) :
    Advances (Build.popValue .object) (s.push c) s :=
  .plain (m := .replace 1 []) (fun _ _ h => Build.popObject_wrote h) (fun _ => rfl) (by
    simp [Move.apply, Making.push])

theorem advances_arrayStore (c c' c'' : Content) (s : Making) :
    Advances Build.arrayStore (((s.push c).push c').push c'') s :=
  .plain (m := .replace 3 []) (fun _ _ h => Build.arrayStore_wrote h) (fun _ => rfl) (by
    simp [Move.apply, Making.push])

theorem advances_pushInt (v : Int32) (s : Making) :
    Advances (Build.pushInt v) s (s.push .other) := by
  refine .single (P := fun p i => Build.PushesInt p v i) (fun _ _ h => Build.pushInt_wrote h)
    (fun p q i pushes grown small => ?_) (apply_replace_none .other s)
  have effect := effect_int (pushes.mono grown) small
  cases pushes with
  | @iconst opcode short => simp only [move?, effect]; rfl
  | bipush => rfl
  | sipush => rfl
  | ldc held => simp only [move?, effect]; rfl

theorem advances_loadMap (slot : UInt16) (s : Making) :
    Advances (Build.load mapType slot) s (s.push (s.slots slot)) :=
  .plain (fun _ _ h => (Build.load_wrote h).2) (fun _ => rfl) rfl

/-- Objects are what the slot holds, numbers are nothing that is followed. -/
theorem advances_load (t : JType) (slot : UInt16) (s : Making) :
    ∃ c, Advances (Build.load t slot) s (s.push c) := by
  cases t with
  | void =>
    exact ⟨.other, .plain (fun _ _ h => (Build.load_wrote h).2) (fun _ => rfl)
      (apply_replace_none .other s)⟩
  | primitive p =>
    refine ⟨.other, .plain (fun _ _ h => (Build.load_wrote h).2) (fun _ => ?_)
      (apply_replace_none .other s)⟩
    cases p <;> rfl
  | reference name =>
    exact ⟨s.slots slot, .plain (fun _ _ h => (Build.load_wrote h).2) (fun _ => rfl) rfl⟩
  | array n element =>
    exact ⟨s.slots slot, .plain (fun _ _ h => (Build.load_wrote h).2) (fun _ => rfl) rfl⟩

theorem advances_store (slot : UInt16) (c : Content) (s : Making) :
    Advances (Build.store mapType slot) (s.push c)
      { s with slots := fun n => if n = slot then c else s.slots n } :=
  .plain (fun _ _ h => Build.store_wrote h) (fun _ => rfl) rfl

theorem advances_pushString (text : String) (s : Making) :
    Advances (Build.pushString text) s (s.push (.text text)) :=
  .constant (P := fun p index => p.HoldsString index text) (fun _ _ h => Build.pushString_wrote h)
    (fun _ _ _ held grown small => by
      simp only [move?, effect_string (held.mono grown) small]
      rfl) (apply_replace_none (.text text) s)

theorem advances_newObject (name : ClassName) (s : Making) :
    Advances (Build.newObject name) s (Making.push (.made s.objects.length)
      { s with objects := s.objects ++ [.raw name.internal] }) :=
  .constant (P := fun p index => p.HoldsClass index name.internal)
    (fun _ _ h => Build.newObject_wrote h) (fun _ _ _ held grown small => by
      simp only [move?, (classAt?_of_holds (held.mono grown) small).1]
      rfl) rfl

theorem advances_newObjectArray (c : Content) (s : Making) :
    Advances (Build.newArray .object) (s.push c) (s.push .other) :=
  .constant (m := .replace 1 [.other])
    (P := fun p index => p.HoldsClass index ClassName.object.internal)
    (fun _ _ h => Build.newObjectArray_wrote h) (fun _ _ _ held grown small => by
      simp only [move?, effect_class (held.mono grown) small]
      rfl) (by simp [Move.apply, Making.push])

/-- A step that calls a method of a class. -/
theorem advances_invoke {op : Opcode} {owner : ClassName} {name : String} {d : MethodDescriptor}
    {e : Effect} {m : Move} (kind : op.operandKind = .constant2) (plain : op.isForm = false)
    (effect : callEffect? op owner.internal name d.descriptor = some e)
    (move : e.move? = some m) (other : op ≠ .newObject) (applied : m.apply s = some s') :
    Advances (Build.invoke op owner name d false) s s' :=
  .constant (P := fun p index => p.HoldsMethod index owner.internal name d.descriptor false)
    (fun _ _ h => Build.invoke_wrote h kind plain) (fun _ _ _ held grown small => by
      have called := @constantEffect_method _ _ op _ _ _ _ (held.mono grown) small
      simp only [move?, if_neg other, effect?, called, effect, Option.bind_some, move]) applied

/-- An object of the class is made, its constructor called, and put on the stack. -/
def Making.create (name : String) (s : Making) : Making :=
  .push (.made s.objects.length) { s with objects := s.objects ++ [.constructed name] }

/-- The constructor is that of the topmost object that is new; there is one copy of it below. -/
theorem apply_construct_fresh (args : List Content) (plain : ∀ a ∈ args, a = .other) (name : String)
    (s : Making) :
    Move.construct.apply ⟨args ++ .made s.objects.length :: .made s.objects.length :: s.stack,
      s.slots, s.objects ++ [.raw name]⟩ = some (s.create name) := by
  have fresh : (s.objects ++ [Made.raw name])[s.objects.length]? = some (.raw name) :=
    List.getElem?_concat_length
  have dropped : (args ++ .made s.objects.length :: .made s.objects.length :: s.stack).dropWhile
      (Making.settled ⟨args ++ .made s.objects.length :: .made s.objects.length :: s.stack,
        s.slots, s.objects ++ [.raw name]⟩) =
      .made s.objects.length :: .made s.objects.length :: s.stack := by
    rw [List.dropWhile_append_of_pos fun a mem => plain a mem ▸ rfl,
      List.dropWhile_cons_of_neg (by simp [Making.settled])]
  simp [Move.apply, dropped, Making.create, Making.push]

theorem advances_construct (name : ClassName) (d : MethodDescriptor) (args : List Content)
    (plain : ∀ a ∈ args, a = .other) (s : Making) :
    Advances (Build.invokeSpecial name "<init>" d)
      ⟨args ++ .made s.objects.length :: .made s.objects.length :: s.stack, s.slots,
        s.objects ++ [.raw name.internal]⟩ (s.create name.internal) :=
  advances_invoke (e := .construct) (m := .construct) (by decide) (by decide) rfl rfl (by decide)
    (apply_construct_fresh args plain name.internal s)

/-- A helper is made and put on the stack. -/
theorem advances_makeHelper (owner helper : ClassName) (isStatic : Bool) (s : Making) :
    Advances (makeHelper owner helper isStatic) s (s.create helper.internal) := by
  refine (advances_newObject helper s).bind fun _ => (advances_dup _ _).bind fun _ => ?_
  cases isStatic with
  | true => exact advances_construct helper _ [] (by simp) s
  | false =>
    exact (advances_loadThis _).bind fun _ => advances_construct helper _ [.other] (by simp) s

/-- A value is put into a map. -/
theorem advances_put (value : Content) (key : String) (n : Nat) (s : Making) :
    Advances (Build.invokeInterface mapClass "put" putDescriptor)
      (((s.push (.made n)).push (.text key)).push value)
      (Making.push .other { s with objects := s.objects.modify n (.put key value) }) :=
  .single (m := .put)
    (P := fun p i => ∃ index count, i = ⟨.invokeinterface, .invokeInterface index count⟩ ∧
      p.HoldsMethod index mapClass.internal "put" putDescriptor.descriptor true)
    (fun _ _ h =>
      have ⟨index, count, wrote, held⟩ := Build.invokeInterface_wrote h
      ⟨_, wrote, fun sound => ⟨index, count, rfl, held sound⟩⟩)
    (fun _ q _ ⟨index, _, same, held⟩ grown small => by
      subst same
      obtain ⟨c, nat, found, owned, typed⟩ := held.mono grown
      have found : q.Holds index (.interfaceMethodRef c nat) := found
      have known : isPut q index = true := by
        simp [isPut, found.get (by simp) small.le, memberAt?_of_holds owned typed small]
      simp only [move?, known, if_true]) rfl

theorem advances_box (t : JType) (c : Content) (s : Making) :
    ∃ c', Advances (Build.box t) (s.push c) (s.push c') := by
  cases t with
  | void =>
    refine ⟨.other, fun b _ b' h => ?_⟩
    cases h
  | primitive p =>
    refine ⟨.other, advances_invoke (m := .replace 1 [.other]) (by decide) (by decide)
      ((callEffect_static (Build.spelled_box p)).trans (if_neg ?_)) rfl (by decide) (by
        simp [Move.apply, Making.push])⟩
    cases p <;> decide
  | _ => exact ⟨c, fun b _ b' h => Advances.pure () (s.push c) b () b' h⟩

/-- Packing arguments makes nothing that is followed, and leaves the array on the stack. -/
theorem advances_packEach (ts : List JType) (index : Nat) (slot : UInt16) (s : Making) :
    Advances (Build.packEach ts index slot) (s.push .other) (s.push .other) := by
  induction ts generalizing index slot with
  | nil => exact .pure _ _
  | cons t ts ih =>
    obtain ⟨c, loaded⟩ := advances_load t slot (((s.push .other).push .other).push .other)
    obtain ⟨c', boxed⟩ := advances_box t c (((s.push .other).push .other).push .other)
    exact (advances_dup _ _).bind fun _ => (advances_pushInt _ _).bind fun _ =>
      loaded.bind fun _ => boxed.bind fun _ => (advances_arrayStore _ _ _ _).bind fun _ => ih _ _

theorem advances_packArguments (d : MethodDescriptor) (slot : UInt16) (s : Making) :
    Advances (Build.packArguments d slot) s (s.push .other) :=
  (advances_pushInt _ s).bind fun _ => (advances_newObjectArray _ s).bind fun _ =>
    advances_packEach _ _ _ _

theorem advances_loadReceiver (isStatic : Bool) (s : Making) :
    Advances (loadReceiver isStatic) s (s.push .other) := by
  cases isStatic with
  | true => exact advances_pushNull s
  | false => exact advances_loadThis s

end Steps

/-! ## Making maps -/

section Maps

/-- A helper is made and put into the map at an address. -/
def Making.enter (n : Nat) (s : Making) (accessor : String × ClassName) : Making :=
  { s with
    objects := (s.objects ++ [Made.constructed accessor.2.internal]).modify n
      (.put accessor.1 (.made s.objects.length)) }

/-- A map with the accessors is made in a slot. -/
def Making.fill (slot : UInt16) (accessors : List (String × ClassName)) (s : Making) : Making :=
  accessors.foldl (.enter s.objects.length)
    { s with
      slots := fun k => if k = slot then .made s.objects.length else s.slots k
      objects := s.objects ++ [.map []] }

theorem advances_putAccessor (owner : ClassName) (helpers : List Helper) (slot : UInt16)
    (accessor : String × ClassName) (s : Making) {n : Nat} (at_slot : s.slots slot = .made n) :
    Advances (putAccessor owner helpers slot accessor) s (s.enter n accessor) := by
  have loaded := advances_loadMap slot s
  rw [at_slot] at loaded
  have entered := advances_put (.made s.objects.length) accessor.1 n
    { s with objects := s.objects ++ [.constructed accessor.2.internal] }
  exact loaded.bind fun _ => (advances_pushString accessor.1 _).bind fun _ =>
    (advances_makeHelper _ _ _ _).bind fun _ => entered.bind fun _ => advances_popObject .other _

theorem advances_putAccessors (owner : ClassName) (helpers : List Helper) (slot : UInt16)
    (accessors : List (String × ClassName)) (s : Making) {n : Nat}
    (at_slot : s.slots slot = .made n) :
    Advances (accessors.forM (putAccessor owner helpers slot)) s
      (accessors.foldl (.enter n) s) := by
  induction accessors generalizing s with
  | nil => exact .pure _ _
  | cons accessor accessors ih =>
    exact (advances_putAccessor owner helpers slot accessor s at_slot).bind fun _ =>
      ih (s.enter n accessor) at_slot

theorem constructed_hashMap : Made.constructed hashMapClass.internal = .map [] := if_pos rfl

theorem advances_makeAccessors (owner : ClassName) (helpers : List Helper) (slot : UInt16)
    (accessors : List (String × ClassName)) (s : Making) :
    Advances (makeAccessors owner helpers slot accessors) s (s.fill slot accessors) := by
  have made := advances_construct hashMapClass plainDescriptor [] (by simp) s
  rw [Making.create, constructed_hashMap] at made
  exact (advances_newObject hashMapClass s).bind fun _ => (advances_dup _ _).bind fun _ =>
    made.bind fun _ => (advances_store slot _ _).bind fun _ =>
      advances_putAccessors owner helpers slot accessors _ (if_pos rfl)

namespace Making

variable {s s' : Making} {n k : Nat} {accessors done : List (String × ClassName)}

/-- The map at an address has an entry for each accessor, the last first: under its name an object
of its class. -/
def Holds (s : Making) (n : Nat) (accessors : List (String × ClassName)) : Prop :=
  ∃ entries, s.objects[n]? = some (.map entries) ∧
    List.Forall₂ (fun e a => e.1 = a.1 ∧ ∃ k, e.2 = .made k ∧
      s.objects[k]? = some (.object a.2.internal)) entries accessors.reverse

/-- What was there is there still. -/
theorem Holds.mono (h : s.Holds n accessors)
    (same : ∀ k < s.objects.length, s'.objects[k]? = s.objects[k]?) : s'.Holds n accessors := by
  obtain ⟨entries, here, all⟩ := h
  have kept {k : Nat} {o : Made} (at_k : s.objects[k]? = some o) : s'.objects[k]? = some o := by
    rw [same k (List.getElem?_eq_some_iff.1 at_k).1, at_k]
  exact ⟨entries, kept here, all.imp fun e a ⟨name, k, made, at_k⟩ => ⟨name, k, made, kept at_k⟩⟩

theorem enter_other (accessor : String × ClassName) (old : k < s.objects.length) (other : k ≠ n) :
    (s.enter n accessor).objects[k]? = s.objects[k]? := by
  simp [enter, other.symm, List.getElem?_append_left old]

/-- One accessor more is entered in front of the others. -/
theorem Holds.enter (h : s.Holds n done) {accessor : String × ClassName}
    (other : accessor.2 ≠ hashMapClass) : (s.enter n accessor).Holds n (done ++ [accessor]) := by
  obtain ⟨entries, here, all⟩ := h
  have low : n < s.objects.length := (List.getElem?_eq_some_iff.1 here).1
  have object : Made.constructed accessor.2.internal = .object accessor.2.internal :=
    if_neg fun same => other (congrArg ClassName.mk same)
  refine ⟨(accessor.1, .made s.objects.length) :: entries, ?_, ?_⟩
  · simp [Making.enter, List.getElem?_append_left low, here, Made.put]
  · rw [List.reverse_append, List.reverse_singleton, List.singleton_append]
    refine .cons ⟨rfl, _, rfl, ?_⟩ (all.imp fun e a ⟨name, k, made, at_k⟩ => ⟨name, k, made, ?_⟩)
    · simp [Making.enter, low.ne, object]
    · rw [enter_other accessor (List.getElem?_eq_some_iff.1 at_k).1 ?_, at_k]
      -- the map is none of its own helpers
      rintro rfl
      cases here.symm.trans at_k

theorem length_enter (accessor : String × ClassName) :
    (s.enter n accessor).objects.length = s.objects.length + 1 := by
  simp [enter]

/-- What a run of entries leaves behind. -/
theorem Holds.enterAll (h : s.Holds n done) (others : ∀ a ∈ accessors, a.2 ≠ hashMapClass) :
    (accessors.foldl (.enter n) s).Holds n (done ++ accessors) ∧
      ∀ k < s.objects.length, k ≠ n →
        (accessors.foldl (.enter n) s).objects[k]? = s.objects[k]? := by
  induction accessors generalizing s done with
  | nil =>
    rw [List.append_nil]
    exact ⟨h, fun _ _ _ => rfl⟩
  | cons a accessors ih =>
    obtain ⟨holds, kept⟩ := ih (h.enter (others a List.mem_cons_self)) fun b mem =>
      others b (List.mem_cons_of_mem a mem)
    rw [List.append_assoc, List.singleton_append] at holds
    refine ⟨holds, fun k old other => ?_⟩
    have still : k < (s.enter n a).objects.length := by
      rw [length_enter]
      omega
    exact (kept k still other).trans (enter_other a old other)

/-- A map that is made holds its accessors, and nothing else that was made has changed. -/
theorem fill_holds (s : Making) (slot : UInt16) (others : ∀ a ∈ accessors, a.2 ≠ hashMapClass) :
    (s.fill slot accessors).Holds s.objects.length accessors ∧
      ∀ k < s.objects.length, (s.fill slot accessors).objects[k]? = s.objects[k]? := by
  have empty : Holds { s with
      slots := fun k => if k = slot then .made s.objects.length else s.slots k
      objects := s.objects ++ [.map []] } s.objects.length [] :=
    ⟨[], List.getElem?_concat_length, .nil⟩
  obtain ⟨holds, kept⟩ := empty.enterAll others
  refine ⟨holds, fun k old => ?_⟩
  have still : k < (s.objects ++ [Made.map []]).length := by
    rw [List.length_append]
    omega
  exact (kept k still old.ne).trans (List.getElem?_append_left old)

/-- Entries change nothing but objects. -/
theorem enterAll_eq {β : Type} (f : Making → β) (same : ∀ s a, f (s.enter n a) = f s) (s : Making) :
    f (accessors.foldl (.enter n) s) = f s := by
  induction accessors generalizing s with
  | nil => rfl
  | cons a accessors ih => exact (ih (s.enter n a)).trans (same s a)

theorem fill_slots (s : Making) (slot : UInt16) (k : UInt16) :
    (s.fill slot accessors).slots k = if k = slot then .made s.objects.length else s.slots k :=
  enterAll_eq (·.slots k) (fun _ _ => rfl) _

theorem fill_stack (s : Making) (slot : UInt16) : (s.fill slot accessors).stack = s.stack :=
  enterAll_eq (·.stack) (fun _ _ => rfl) _

/-- Each name is bound to the last of its accessors. -/
theorem Holds.bound?_eq (h : s.Holds n accessors) (name : String) :
    s.bound? (.made n) name = (accessors.reverse.lookup name).map (·.internal) := by
  obtain ⟨entries, here, all⟩ := h
  simp only [bound?, here]
  generalize accessors.reverse = last at all
  clear here
  induction all with
  | nil => rfl
  | @cons e a entries accessors first _ ih =>
    obtain ⟨same, k, made, at_k⟩ := first
    obtain ⟨key, value⟩ := e
    obtain ⟨name', helper⟩ := a
    dsimp only at same made
    subst same made
    by_cases own : name = key
    · subst own
      simp [at_k]
    · rw [List.lookup_cons, List.lookup_cons, beq_false_of_ne own]
      exact ih

end Making

end Maps

/-! ## Calls of the bridge -/

section Calls

variable {α : Type} {s s' : Making} {entry : String} {others : Nat} {P : Making → Prop}

/-- What the step writes leads from one state of the objects to another with a property, and calls
the bridge there with a token and further arguments. -/
def Asks (x : Build Unit) (s : Making) (entry : String) (others : Nat) (P : Making → Prop) : Prop :=
  ∀ b b', x b = .ok () b' → ∃ before call after, b.Wrote b' (before ++ call :: after) ∧
    (b.pool.Sound → ∀ q, b'.pool.Extends q → q.size < 65536 →
      (∃ s', before.foldlM (advance q) s = some s' ∧ P s') ∧
        ∃ pushes, effect? q call = some (.hand entry others pushes))

/-- A step in front of the call. -/
theorem Advances.asks {x : Build α} {f : α → Build Unit} (hx : Advances x s s')
    (hf : ∀ a, Asks (f a) s' entry others P) : Asks (x >>= f) s entry others P := by
  intro b b'' h
  obtain ⟨a, b', first, second⟩ := step_bind_eq_ok.1 h
  obtain ⟨ops, wrote, advanced⟩ := hx b a b' first
  obtain ⟨before, call, after, wrote', asked⟩ := hf a b' b'' second
  refine ⟨ops ++ before, call, after, ?_, fun sound q grown small => ?_⟩
  · rw [List.append_assoc]
    exact wrote.trans wrote'
  · obtain ⟨⟨s'', reached, holds⟩, called⟩ := asked (wrote.pool.sound sound) q grown small
    refine ⟨⟨s'', ?_, holds⟩, called⟩
    rw [List.foldlM_append, advanced sound q (wrote'.pool.keeps.trans grown) small]
    exact reached

theorem asks_bridge {d : MethodDescriptor} (spelled : d.Spelled)
    (count : d.params.length = others + 1) {y : Build Unit} (straight : y.Straight) (holds : P s) :
    Asks (Build.invokeStatic bridgeClass entry d >>= fun _ => y) s entry others P := by
  intro b b'' h
  obtain ⟨⟨⟩, b', first, second⟩ := step_bind_eq_ok.1 h
  obtain ⟨index, wrote, held⟩ := Build.invoke_wrote first (by decide) (by decide)
  obtain ⟨ops, wrote'⟩ := straight _ _ _ second
  refine ⟨[], _, ops, wrote.trans wrote', fun sound q grown small =>
    ⟨⟨s, rfl, holds⟩, answerSources d.ret, ?_⟩⟩
  have called := @constantEffect_method _ _ .invokestatic _ _ _ _
    ((held sound).mono (wrote'.pool.keeps.trans grown)) small
  rw [callEffect_static spelled, count, Nat.add_sub_cancel,
    if_pos ⟨rfl, fun none => by simp [none] at count⟩] at called
  exact called

/-- Slots of their own are taken for two maps. -/
theorem asks_allocateMaps {f : UInt16 → UInt16 → Build Unit}
    (h : ∀ n k, n ≠ k → Asks (f n k) s entry others P) :
    Asks (do f (← Build.allocateLocal mapType) (← Build.allocateLocal mapType)) s entry
      others P := by
  intro b b' done
  have apart : b.nextLocal ≠ b.nextLocal + max mapType.slots 1 := by
    rw [ne_eq, UInt16.left_eq_add]
    decide
  obtain ⟨before, call, after, wrote, asked⟩ := h _ _ apart _ _ done
  exact ⟨before, call, after, ⟨wrote.pool, wrote.code, wrote.handlers, wrote.straight, wrote.few⟩,
    asked⟩

/-- The code hands over a map with its fields and one with its methods, above the token. -/
def PlannedMethod.HandsMaps (m : PlannedMethod) (s : Making) : Prop :=
  ∃ fields methods, s.stack = [methods, fields, .other, .other, .text m.token] ∧
    (∀ name, s.bound? fields name = (m.fields.reverse.lookup name).map (·.internal)) ∧
    ∀ name, s.bound? methods name = (m.methods.reverse.lookup name).map (·.internal)

theorem PlannedMethod.asks_code (owner : ClassName) (helpers : List Helper) (m : PlannedMethod)
    (fields : ∀ a ∈ m.fields, a.2 ≠ hashMapClass)
    (methods : ∀ a ∈ m.methods, a.2 ≠ hashMapClass) :
    Asks (m.code owner helpers) .start "invokeAdded" 4 m.HandsMaps := by
  -- the map of fields is made first and survives the other in a slot of its own
  refine asks_allocateMaps fun n k apart => ?_
  let s₁ := Making.start.fill n m.fields
  let s₂ := s₁.fill k m.methods
  obtain ⟨held, -⟩ := Making.start.fill_holds n fields
  obtain ⟨held', kept⟩ := s₁.fill_holds k methods
  have at_n : s₂.slots n = .made 0 := by
    rw [Making.fill_slots, if_neg apart, Making.fill_slots, if_pos rfl]
    rfl
  have at_k : s₂.slots k = .made s₁.objects.length := by
    rw [Making.fill_slots, if_pos rfl]
  have stack : s₂.stack = [] := by
    rw [Making.fill_stack, Making.fill_stack]
    rfl
  have handed : m.HandsMaps (((((s₂.push (.text m.token)).push .other).push .other).push
      (s₂.slots n)).push (s₂.slots k)) := by
    refine ⟨s₂.slots n, s₂.slots k, ?_, fun name => ?_, fun name => ?_⟩
    · simp only [Making.push, stack]
    · rw [at_n]
      exact (held.mono kept).bound?_eq name
    · rw [at_k]
      exact held'.bound?_eq name
  exact (advances_makeAccessors owner helpers n m.fields .start).asks fun _ =>
    (advances_makeAccessors owner helpers k m.methods s₁).asks fun _ =>
      (advances_pushString m.token s₂).asks fun _ => (advances_loadReceiver _ _).asks fun _ =>
        (advances_packArguments _ _ _).asks fun _ => (advances_loadMap n _).asks fun _ =>
          (advances_loadMap k _).asks fun _ => asks_bridge spelled_invokeAddedDescriptor rfl
            (writes_returnObject _).straight handed

end Calls

end Weft.Weave
