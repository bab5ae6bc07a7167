import Mathlib.Algebra.Group.Nat.Defs
import Mathlib.Order.Monotone.Basic
import Weft.Code.StackMap
import Weft.Proofs.Bytes.Consuming

/-!
# Stack maps behind an insertion

A grammar says which bytes spell frames: a frame has one of its forms at its distance from the frame
before, and there may be a short and a long form for the same distance. Bytes spell at most one list
of frames. A stack map is shifted just if it is spelled so and every number still has sixteen bits
when it is moved, and what is written spells the same frames, each offset moved.
-/

namespace Weft

/-! ## Types -/

namespace VerificationType

/-- The bytes are those of the type. -/
inductive Spells : VerificationType → Bytes → Prop
  | basic {tag : UInt8} (known : tag ≤ 6) : Spells (basic tag) [tag]
  | object (index : UInt16) : Spells (object index) (7 :: Bytes.ofU16 index)
  | uninitialized (offset : UInt16) : Spells (uninitialized offset) (8 :: Bytes.ofU16 offset)

/-- The type with the offset in it moved. -/
def mapOffset (move : Nat → Nat) : VerificationType → VerificationType
  | uninitialized offset => uninitialized (UInt16.ofNat (move offset.toNat))
  | t => t

/-- The offset in the type has sixteen bits when it is moved. -/
def Fits (move : Nat → Nat) : VerificationType → Prop
  | uninitialized offset => move offset.toNat < 65536
  | _ => True

variable {move : Nat → Nat} {t : VerificationType} {bs : Bytes}

theorem Spells.write (h : t.Spells bs) (move : Nat → Nat) :
    (t.mapOffset move).Spells (t.mapOffset move).write := by
  cases h with
  | basic known => exact .basic known
  | object index => exact .object index
  | uninitialized offset => exact .uninitialized _

theorem takes_read (h : t.Spells bs) (fits : t.Fits move) (pos : Nat) :
    (read move).Takes pos bs (t.mapOffset move) := by
  cases h with
  | @basic tag known =>
    refine (Reader.Takes.u8 tag).close ?_
    rw [if_pos known]
    exact .pure _
  | object index => exact (Reader.Takes.u8 7).bind (Reader.Takes.u16 index).map
  | uninitialized offset =>
    refine (Reader.Takes.u8 8).bind ?_
    refine (Reader.Takes.u16 offset).close ?_
    have few : move offset.toNat < 65536 := fits
    dsimp only
    rw [if_pos few]
    exact .pure _

theorem consumes_read (move : Nat → Nat) : (read move).Consumes fun t' bs =>
    ∃ t : VerificationType, t.Spells bs ∧ t.Fits move ∧ t' = t.mapOffset move := by
  refine Reader.Consumes.u8.bind fun tag xs tagged => ?_
  subst tagged
  split
  · rename_i known
    exact .pure ⟨basic tag, .basic known, trivial, rfl⟩
  · split
    · rename_i seven
      subst seven
      refine Reader.Consumes.map (Reader.Consumes.u16.mono fun index ys indexed => ?_)
      subst indexed
      exact ⟨object index, .object index, trivial, rfl⟩
    · split
      · rename_i eight
        subst eight
        refine Reader.Consumes.u16.bind fun offset ys given => ?_
        subst given
        dsimp only
        split
        · rename_i few
          refine .pure ⟨uninitialized offset, ?_, few, rfl⟩
          rw [List.append_nil]
          exact .uninitialized offset
        · exact .throw
      · exact .throw

theorem fits_id (t : VerificationType) : t.Fits id := by
  cases t with
  | uninitialized offset => exact offset.toNat_lt
  | basic => trivial
  | object => trivial

theorem mapOffset_id (t : VerificationType) : t.mapOffset id = t := by
  cases t with
  | uninitialized offset => exact congrArg uninitialized UInt16.ofNat_toNat
  | basic => rfl
  | object => rfl

theorem mapOffset_congr {move move' : Nat → Nat} (same : ∀ o < 2 ^ 16, move o = move' o) :
    mapOffset move = mapOffset move' := by
  funext t
  cases t with
  | uninitialized offset =>
    exact congrArg (uninitialized ∘ UInt16.ofNat) (same _ offset.toNat_lt)
  | basic => rfl
  | object => rfl

theorem fits_congr {move move' : Nat → Nat} (same : ∀ o < 2 ^ 16, move o = move' o) :
    t.Fits move ↔ t.Fits move' := by
  cases t with
  | uninitialized offset => simp only [Fits, same _ offset.toNat_lt]
  | basic => exact Iff.rfl
  | object => exact Iff.rfl

/-- Moving twice is moving by both, as long as the offset has room between. -/
theorem mapOffset_mapOffset {move' : Nat → Nat} (fits : t.Fits move) :
    (t.mapOffset move).mapOffset move' = t.mapOffset (move' ∘ move) := by
  cases t with
  | uninitialized offset =>
    simp only [mapOffset, UInt16.toNat_ofNat_of_lt' fits, Function.comp]
  | basic => rfl
  | object => rfl

section Lists

variable {move : Nat → Nat} {ts : List VerificationType} {parts : List Bytes} {bs : Bytes}

theorem takes_each (h : List.Forall₂ Spells ts parts) (fits : ∀ t ∈ ts, t.Fits move) :
    List.Forall₂ (fun bs t => ∀ pos, (read move).Takes pos bs t) parts
      (ts.map (·.mapOffset move)) := by
  induction h with
  | nil => exact .nil
  | cons head _ ih =>
    exact .cons (takes_read head (fits _ List.mem_cons_self))
      (ih fun t mem => fits t (List.mem_cons_of_mem _ mem))

theorem takes_table (h : Tabled Spells ts bs) (fits : ∀ t ∈ ts, t.Fits move) (pos : Nat) :
    (Reader.table (read move)).Takes pos bs (ts.map (·.mapOffset move)) := by
  obtain ⟨few, parts, each, rfl⟩ := h
  refine Reader.Takes.table ⟨by rwa [List.length_map], parts, (takes_each each fits).flip, ?_⟩
  rw [List.length_map]

theorem spells_each {ts' : List VerificationType} (h : List.Forall₂ (fun t' bs =>
      ∃ t : VerificationType, t.Spells bs ∧ t.Fits move ∧ t' = t.mapOffset move) ts' parts) :
    ∃ ts, List.Forall₂ Spells ts parts ∧ (∀ t ∈ ts, t.Fits move) ∧
      ts' = ts.map (·.mapOffset move) := by
  induction h with
  | nil => exact ⟨[], .nil, List.forall_mem_nil _, rfl⟩
  | cons head _ ih =>
    obtain ⟨t, spelled, fits, rfl⟩ := head
    obtain ⟨ts, each, all, rfl⟩ := ih
    exact ⟨t :: ts, .cons spelled each, List.forall_mem_cons.2 ⟨fits, all⟩, rfl⟩

theorem consumes_table (move : Nat → Nat) : (Reader.table (read move)).Consumes fun ts' bs =>
    ∃ ts, Tabled Spells ts bs ∧ (∀ t ∈ ts, t.Fits move) ∧ ts' = ts.map (·.mapOffset move) := by
  refine (Reader.Consumes.table (consumes_read move)).mono ?_
  rintro ts' bs ⟨few, parts, each, rfl⟩
  obtain ⟨ts, spelled, fits, rfl⟩ := spells_each each
  rw [List.length_map] at few ⊢
  exact ⟨ts, ⟨few, parts, spelled, rfl⟩, fits, rfl⟩

/-- Types that are written are spelled, moved or not. -/
theorem spells_write (h : List.Forall₂ Spells ts parts) (move : Nat → Nat) :
    List.Forall₂ Spells (ts.map (·.mapOffset move))
      ((ts.map (·.mapOffset move)).map (·.write)) := by
  induction h with
  | nil => exact .nil
  | cons head _ ih => exact .cons (head.write move) ih

end Lists

end VerificationType

/-! ## Frames -/

namespace FrameShape

/-- The types in the frame. -/
def types : FrameShape → List VerificationType
  | same => []
  | oneStack item => [item]
  | chop _ => []
  | append locals => locals
  | full locals stack => locals ++ stack

/-- The shape with the offsets in its types moved. -/
def mapOffsets (move : Nat → Nat) : FrameShape → FrameShape
  | same => same
  | oneStack item => oneStack (item.mapOffset move)
  | chop count => chop count
  | append locals => append (locals.map (·.mapOffset move))
  | full locals stack =>
    full (locals.map (·.mapOffset move)) (stack.map (·.mapOffset move))

/-- The bytes are those of a frame of the shape at that distance from the frame before it. -/
inductive Spells : FrameShape → Nat → Bytes → Prop
  | same {tag : UInt8} (short : tag < 64) : Spells same tag.toNat [tag]
  | sameExtended (delta : UInt16) : Spells same delta.toNat (251 :: Bytes.ofU16 delta)
  | oneStack {item : VerificationType} {tag : UInt8} {bs : Bytes} (long : 64 ≤ tag)
    (short : tag < 128) (typed : item.Spells bs) :
    Spells (oneStack item) (tag.toNat - 64) (tag :: bs)
  | oneStackExtended {item : VerificationType} {bs : Bytes} (delta : UInt16)
    (typed : item.Spells bs) :
    Spells (oneStack item) delta.toNat (247 :: (Bytes.ofU16 delta ++ bs))
  | chop {count : UInt8} (some : 1 ≤ count) (few : count ≤ 3) (delta : UInt16) :
    Spells (chop count) delta.toNat ((251 - count) :: Bytes.ofU16 delta)
  | append {locals : List VerificationType} {parts : List Bytes} (some : 1 ≤ locals.length)
    (few : locals.length ≤ 3) (delta : UInt16)
    (typed : List.Forall₂ VerificationType.Spells locals parts) :
    Spells (append locals) delta.toNat
      ((251 + UInt8.ofNat locals.length) :: (Bytes.ofU16 delta ++ parts.flatten))
  | full {locals stack : List VerificationType} {xs ys : Bytes} (delta : UInt16)
    (first : Tabled VerificationType.Spells locals xs)
    (second : Tabled VerificationType.Spells stack ys) :
    Spells (full locals stack) delta.toNat (255 :: (Bytes.ofU16 delta ++ (xs ++ ys)))

variable {move : Nat → Nat} {shape : FrameShape} {delta : Nat} {bs : Bytes}

theorem mapOffsets_congr {move move' : Nat → Nat} (same : ∀ o < 2 ^ 16, move o = move' o) :
    mapOffsets move = mapOffsets move' := by
  funext shape
  cases shape <;> simp only [mapOffsets, VerificationType.mapOffset_congr same]

theorem Spells.delta_lt (h : shape.Spells delta bs) : delta < 65536 := by
  cases h with
  | same short => exact short.trans (by decide)
  | @oneStack _ tag => exact (Nat.sub_le ..).trans_lt (tag.toNat_lt.trans (by decide))
  | sameExtended delta => exact delta.toNat_lt
  | oneStackExtended delta => exact delta.toNat_lt
  | chop _ _ delta => exact delta.toNat_lt
  | append _ _ delta => exact delta.toNat_lt
  | full delta => exact delta.toNat_lt

theorem takes_readShape (h : shape.Spells delta bs) (fits : ∀ t ∈ shape.types, t.Fits move)
    (pos : Nat) : (Frame.readShape move).Takes pos bs (delta, shape.mapOffsets move) := by
  cases h with
  | @same tag short =>
    refine (Reader.Takes.u8 tag).close ?_
    rw [if_pos short]
    exact .pure _
  | sameExtended delta =>
    exact (Reader.Takes.u8 251).bind ((Reader.Takes.u16 delta).map.close (.pure _))
  | @oneStack item tag bs long short typed =>
    refine (Reader.Takes.u8 tag).bind ?_
    rw [if_neg (UInt8.not_lt.2 long), if_pos short]
    exact (VerificationType.takes_read typed (fits item List.mem_cons_self) _).map
  | @oneStackExtended item bs delta typed =>
    exact (Reader.Takes.u8 247).bind ((Reader.Takes.u16 delta).map.bind
      (VerificationType.takes_read typed (fits item List.mem_cons_self) _).map)
  | @chop count some few delta =>
    have counts : count = 1 ∨ count = 2 ∨ count = 3 := by grind
    rcases counts with rfl | rfl | rfl
    all_goals
      exact (Reader.Takes.u8 _).bind ((Reader.Takes.u16 delta).map.close (.pure _))
  | @append locals parts some few delta typed =>
    have counts : locals.length = 1 ∨ locals.length = 2 ∨ locals.length = 3 := by omega
    have items := VerificationType.takes_each typed fits
    have number : (locals.map (·.mapOffset move)).length = locals.length := List.length_map _
    rcases counts with count | count | count
    all_goals
      rw [count] at number ⊢
      exact (Reader.Takes.u8 _).bind ((Reader.Takes.u16 delta).map.bind
        (Reader.Takes.times items number).map)
  | full delta first second =>
    refine (Reader.Takes.u8 255).bind ((Reader.Takes.u16 delta).map.bind ?_)
    have left := VerificationType.takes_table first fun t mem => fits t (List.mem_append_left _ mem)
    have right := VerificationType.takes_table second fun t mem =>
      fits t (List.mem_append_right _ mem)
    exact (left _).bind (right _).map

theorem consumes_readShape (move : Nat → Nat) : (Frame.readShape move).Consumes fun a bs =>
    ∃ shape : FrameShape, shape.Spells a.1 bs ∧ (∀ t ∈ shape.types, t.Fits move) ∧
      a.2 = shape.mapOffsets move := by
  refine Reader.Consumes.u8.bind fun tag xs tagged => ?_
  subst tagged
  split
  · rename_i short
    exact .pure ⟨same, .same short, List.forall_mem_nil _, rfl⟩
  rename_i long
  split
  · rename_i short
    refine Reader.Consumes.map ((VerificationType.consumes_read move).mono ?_)
    rintro item bs ⟨t, spelled, fits, rfl⟩
    exact ⟨oneStack t, .oneStack (UInt8.not_lt.1 long) short spelled,
      List.forall_mem_singleton.2 fits, rfl⟩
  split
  · exact .throw
  rename_i reserved
  -- All that follows has the distance in two bytes.
  refine (Reader.Consumes.map (f := UInt16.toNat) (W := fun n bs => ∃ delta : UInt16,
    n = delta.toNat ∧ bs = Bytes.ofU16 delta) (Reader.Consumes.u16.mono fun delta bs given =>
      ⟨delta, rfl, given⟩)).bind ?_
  rintro _ _ ⟨delta, rfl, rfl⟩
  split
  · rename_i same
    subst same
    refine Reader.Consumes.map ((VerificationType.consumes_read move).mono ?_)
    rintro item bs ⟨t, spelled, fits, rfl⟩
    exact ⟨oneStack t, .oneStackExtended delta spelled, List.forall_mem_singleton.2 fits, rfl⟩
  split
  · rename_i other chops
    have back : (251 : UInt8) - (251 - tag) = tag := by grind
    refine .pure ⟨chop (251 - tag), ?_, List.forall_mem_nil _, rfl⟩
    have spelled : (chop (251 - tag)).Spells delta.toNat
        ((251 - (251 - tag)) :: Bytes.ofU16 delta) := .chop (by grind) (by grind) delta
    rw [back] at spelled
    simpa using spelled
  split
  · rename_i same
    subst same
    refine .pure ⟨FrameShape.same, ?_, List.forall_mem_nil _, rfl⟩
    simpa using Spells.sameExtended delta
  split
  · rename_i other chops extended appends
    have tags : tag = 252 ∨ tag = 253 ∨ tag = 254 := by grind
    refine Reader.Consumes.map
      ((Reader.Consumes.times (VerificationType.consumes_read move) _).mono ?_)
    rintro items bs ⟨number, parts, each, rfl⟩
    obtain ⟨locals, spelled, fits, rfl⟩ := VerificationType.spells_each each
    rw [List.length_map] at number
    have counted : 1 ≤ locals.length ∧ locals.length ≤ 3 ∧
        tag = 251 + UInt8.ofNat locals.length := by
      rw [number]
      rcases tags with rfl | rfl | rfl
      all_goals decide
    obtain ⟨some, few, same⟩ := counted
    refine ⟨append locals, ?_, fits, rfl⟩
    rw [same]
    exact .append some few delta spelled
  rename_i other chops extended appends
  obtain rfl : tag = 255 := by grind
  refine (VerificationType.consumes_table move).bind ?_
  rintro _ xs ⟨locals, first, fits, rfl⟩
  refine Reader.Consumes.map ((VerificationType.consumes_table move).mono ?_)
  rintro _ ys ⟨stack, second, fits', rfl⟩
  exact ⟨full locals stack, .full delta first second,
    fun t mem => (List.mem_append.1 mem).elim (fits t) (fits' t), rfl⟩

theorem spells_types {ts : List VerificationType} (h : Tabled VerificationType.Spells ts bs)
    (move : Nat → Nat) : Tabled VerificationType.Spells (ts.map (·.mapOffset move))
      (Frame.shapeBytes.types (ts.map (·.mapOffset move))) := by
  obtain ⟨few, parts, each, -⟩ := h
  refine ⟨by rwa [List.length_map], _, VerificationType.spells_write each move, ?_⟩
  rw [Frame.shapeBytes.types, List.flatMap_def]

/-- A short distance is added to the tag. -/
theorem toNat_shortTag {base : UInt8} {delta : UInt16} (room : base ≤ 64) (short : delta < 64) :
    (base + delta.toUInt8).toNat = base.toNat + delta.toNat := by
  have room : base.toNat ≤ 64 := room
  have short : delta.toNat < 64 := short
  rw [UInt8.toNat_add, UInt16.toNat_toUInt8]
  omega

/-- A frame can be written at any distance, with its offsets moved. -/
theorem Spells.shapeBytes (h : shape.Spells delta bs) (move : Nat → Nat) (delta' : UInt16) :
    (shape.mapOffsets move).Spells delta'.toNat
      (Frame.shapeBytes delta' (shape.mapOffsets move)) := by
  have sameBytes : FrameShape.same.Spells delta'.toNat (Frame.shortBytes 0 251 delta') := by
    unfold Frame.shortBytes
    split
    · rename_i short
      have number : ((0 : UInt8) + delta'.toUInt8).toNat = (0 : UInt8).toNat + delta'.toNat :=
        toNat_shortTag (by decide) short
      have small : delta'.toNat < 64 := short
      rw [UInt8.toNat_zero, Nat.zero_add] at number
      rw [← number] at small ⊢
      exact .same small
    · exact .sameExtended delta'
  have stackBytes {item : VerificationType} {bs : Bytes} (typed : item.Spells bs) :
      (FrameShape.oneStack item).Spells delta'.toNat (Frame.shortBytes 64 247 delta' ++ bs) := by
    unfold Frame.shortBytes
    split
    · rename_i short
      have number : (64 + delta'.toUInt8).toNat = 64 + delta'.toNat :=
        toNat_shortTag (by decide) short
      have small : delta'.toNat < 64 := short
      have spelled : (FrameShape.oneStack item).Spells ((64 + delta'.toUInt8).toNat - 64)
          ((64 + delta'.toUInt8) :: bs) := .oneStack
        (UInt8.le_iff_toNat_le.2 (by rw [number]; exact Nat.le_add_right 64 _))
        (UInt8.lt_iff_toNat_lt.2 (by rw [number]; exact Nat.add_lt_add_left small 64)) typed
      rwa [number, Nat.add_sub_cancel_left] at spelled
    · exact .oneStackExtended delta' typed
  cases h with
  | same => exact sameBytes
  | sameExtended => exact sameBytes
  | oneStack _ _ typed => exact stackBytes (typed.write move)
  | oneStackExtended _ typed => exact stackBytes (typed.write move)
  | chop some few => exact .chop some few delta'
  | @append locals parts some few _ typed =>
    have number : (locals.map (·.mapOffset move)).length = locals.length := List.length_map _
    have appended := Spells.append (by rwa [number]) (by rwa [number]) delta'
      (VerificationType.spells_write typed move)
    rwa [← List.flatMap_def] at appended
  | full _ first second => exact .full delta' (spells_types first move) (spells_types second move)

end FrameShape

namespace Frame

/-- The frame with its offset and those in its types moved. -/
def mapOffsets (move : Nat → Nat) (f : Frame) : Frame :=
  ⟨move f.offset, f.shape.mapOffsets move⟩

theorem mapOffsets_id (f : Frame) : f.mapOffsets id = f := by
  obtain ⟨offset, shape⟩ := f
  cases shape <;> simp [mapOffsets, FrameShape.mapOffsets, VerificationType.mapOffset_id]

theorem mapOffsets_mapOffsets {move move' : Nat → Nat} (f : Frame)
    (fits : ∀ t ∈ f.shape.types, t.Fits move) :
    (f.mapOffsets move).mapOffsets move' = f.mapOffsets (move' ∘ move) := by
  obtain ⟨offset, shape⟩ := f
  have each {ts : List VerificationType} (fits : ∀ t ∈ ts, t.Fits move) :
      (ts.map (·.mapOffset move)).map (·.mapOffset move') =
        ts.map (·.mapOffset (move' ∘ move)) := by
    rw [List.map_map]
    exact List.map_congr_left fun t mem => VerificationType.mapOffset_mapOffset (fits t mem)
  refine congrArg (Frame.mk _) ?_
  cases shape with
  | same => rfl
  | oneStack item =>
    exact congrArg FrameShape.oneStack
      (VerificationType.mapOffset_mapOffset (fits item List.mem_cons_self))
  | chop => rfl
  | append locals => exact congrArg FrameShape.append (each fits)
  | full locals stack =>
    exact congrArg₂ FrameShape.full (each fun t mem => fits t (List.mem_append_left _ mem))
      (each fun t mem => fits t (List.mem_append_right _ mem))

/-- The distance of an offset from that of the frame before, as a stack map has it. -/
def gap : Option Nat → Nat → Int
  | none, offset => offset
  | some prior, offset => offset - prior - 1

/-- The distances of frames behind one at `previous`. -/
def gaps : Option Nat → List Frame → List Int
  | _, [] => []
  | previous, f :: fs => gap previous f.offset :: gaps (some f.offset) fs

end Frame

namespace StackMap

/-- The bytes are those of frames behind one at `previous`. -/
inductive Follows : Option Nat → List Frame → Bytes → Prop
  | nil (previous : Option Nat) : Follows previous [] []
  | cons {previous : Option Nat} {delta : Nat} {shape : FrameShape} {fs : List Frame}
    {bs rest : Bytes} (spelled : shape.Spells delta bs)
    (behind : Follows (some (Frame.offsetAt previous delta)) fs rest) :
    Follows previous (⟨Frame.offsetAt previous delta, shape⟩ :: fs) (bs ++ rest)

/-- The bytes are a whole stack map of the frames. -/
structure Spells (frames : List Frame) (data : Bytes) : Prop where
  few : frames.length < 65536
  spelled : ∃ bs, Follows none frames bs ∧
    data = Bytes.ofU16 (UInt16.ofNat frames.length) ++ bs

/-- When they are moved, the frames can still be written with sixteen bits for each number. -/
structure Fits (move : Nat → Nat) (frames : List Frame) : Prop where
  distances : ∀ d ∈ Frame.gaps none (frames.map (·.mapOffsets move)), d < 65536
  types : ∀ f ∈ frames, ∀ t ∈ f.shape.types, t.Fits move

variable {move : Nat → Nat} {previous : Option Nat} {frames : List Frame} {bs data : Bytes}

/-! ## What is read -/

theorem takes_readFrames (h : Follows previous frames bs)
    (fits : ∀ f ∈ frames, ∀ t ∈ f.shape.types, t.Fits move) (pos : Nat) (acc : List Frame) :
    (readFrames move frames.length previous acc).Takes pos bs
      (acc.reverse ++ frames.map (·.mapOffsets move)) := by
  induction h generalizing pos acc with
  | nil =>
    rw [List.map_nil, List.append_nil]
    exact .pure _
  | @cons previous delta shape fs bs rest spelled behind ih =>
    have first := FrameShape.takes_readShape spelled (fits _ List.mem_cons_self) pos
    have others := ih (fun f mem => fits f (List.mem_cons_of_mem _ mem)) (pos + bs.length)
      (⟨move (Frame.offsetAt previous delta), shape.mapOffsets move⟩ :: acc)
    rw [List.reverse_cons, List.append_assoc] at others
    exact first.bind others

theorem consumes_readFrames (move : Nat → Nat) (n : Nat) (previous : Option Nat)
    (acc : List Frame) : (readFrames move n previous acc).Consumes fun out bs =>
      ∃ frames, Follows previous frames bs ∧ frames.length = n ∧
        (∀ f ∈ frames, ∀ t ∈ f.shape.types, t.Fits move) ∧
        out = acc.reverse ++ frames.map (·.mapOffsets move) := by
  induction n generalizing previous acc with
  | zero =>
    refine .pure ⟨[], .nil previous, rfl, List.forall_mem_nil _, ?_⟩
    rw [List.map_nil, List.append_nil]
  | succ n ih =>
    refine (FrameShape.consumes_readShape move).bind ?_
    rintro ⟨delta, _⟩ xs ⟨shape, spelled, fits, rfl⟩
    refine (ih _ _).mono ?_
    rintro out ys ⟨frames, behind, rfl, fits', rfl⟩
    refine ⟨_ :: frames, .cons spelled behind, rfl, List.forall_mem_cons.2 ⟨fits, fits'⟩, ?_⟩
    simp [Frame.mapOffsets]

/-- A stack map is read as the frames that it spells, with the offsets moved. -/
theorem parse_read_eq_ok {out : List Frame} : (read move).parse data = .ok out ↔
    ∃ frames, Spells frames data ∧ (∀ f ∈ frames, ∀ t ∈ f.shape.types, t.Fits move) ∧
      out = frames.map (·.mapOffsets move) := by
  constructor
  · intro h
    obtain ⟨s', done⟩ := Reader.parse_eq_ok h
    obtain ⟨n, s₁, counted, done⟩ := step_bind_eq_ok.1 done
    obtain ⟨frames', s₂, framed, done⟩ := step_bind_eq_ok.1 done
    obtain ⟨more, s₃, asked, done⟩ := step_bind_eq_ok.1 done
    obtain ⟨_, front, rfl⟩ := Reader.Consumes.u16 _ _ _ counted
    obtain ⟨bs, back, frames, follows, number, fits, same⟩ :=
      consumes_readFrames move n.toNat none [] _ _ _ framed
    obtain ⟨rfl, rfl⟩ := step_pure_eq_ok.1 asked
    split at done
    · obtain ⟨_, _, failed, -⟩ := step_bind_eq_ok.1 done
      cases failed
    · rename_i ended
      obtain ⟨rfl, -⟩ := step_pure_eq_ok.1 done
      have ended : s₂.rest = [] := by simpa using ended
      rw [back, ended, List.append_nil] at front
      refine ⟨frames, ⟨number ▸ n.toNat_lt, bs, follows, ?_⟩, fits, same⟩
      rw [number, UInt16.ofNat_toNat]
      exact front
  · rintro ⟨frames, ⟨few, bs, follows, rfl⟩, fits, rfl⟩
    refine Reader.Ends.parse ((Reader.Takes.u16 _).ends ?_)
    rw [UInt16.toNat_ofNat_of_lt' few]
    exact (takes_readFrames follows fits (0 + 2) []).finish ⟨_, rfl⟩

/-! ## What is written -/

theorem delta_of_gap {previous : Option Nat} {offset : Nat} (word : offset < 2 ^ 64)
    (nonneg : 0 ≤ Frame.gap previous offset) :
    Frame.gap previous offset = Frame.deltaFrom previous offset ∧
      Frame.offsetAt previous (Frame.deltaFrom previous offset) = offset := by
  cases previous with
  | none => exact ⟨rfl, rfl⟩
  | some prior =>
    simp only [Frame.gap] at nonneg ⊢
    have delta : Frame.deltaFrom (some prior) offset = offset - prior - 1 := by
      simp only [Frame.deltaFrom, UInt64.toNat_sub, UInt64.toNat_ofNat', UInt64.toNat_one]
      omega
    rw [delta]
    simp only [Frame.offsetAt]
    omega

/-- Frames of which every distance has sixteen bits are spelled by what is written. -/
theorem follows_frameBytes (acc : List Bytes) (words : ∀ f ∈ frames, f.offset < 2 ^ 64)
    (nonneg : ∀ d ∈ Frame.gaps previous frames, 0 ≤ d)
    (fits : ∀ d ∈ Frame.gaps previous frames, d < 65536)
    (shaped : ∀ f ∈ frames, ∀ delta : UInt16,
      f.shape.Spells delta.toNat (Frame.shapeBytes delta f.shape)) :
    ∃ parts, frameBytes previous frames acc = .ok (acc.reverse ++ parts) ∧
      Follows previous frames parts.flatten := by
  induction frames generalizing previous acc with
  | nil => exact ⟨[], by rw [frameBytes, List.append_nil], .nil previous⟩
  | cons f fs ih =>
    obtain ⟨word, words⟩ := List.forall_mem_cons.1 words
    obtain ⟨nonneg, later⟩ := List.forall_mem_cons.1 nonneg
    obtain ⟨short, fits⟩ := List.forall_mem_cons.1 fits
    obtain ⟨spelled, shaped⟩ := List.forall_mem_cons.1 shaped
    obtain ⟨same, stands⟩ := delta_of_gap word nonneg
    have short : Frame.deltaFrom previous f.offset < 65536 := by omega
    obtain ⟨parts, written, follows⟩ := ih
      (Frame.shapeBytes (UInt16.ofNat (Frame.deltaFrom previous f.offset)) f.shape :: acc) words
      later fits shaped
    refine ⟨Frame.shapeBytes (UInt16.ofNat (Frame.deltaFrom previous f.offset)) f.shape :: parts,
      ?_, ?_⟩
    · rw [frameBytes, if_pos short, written, List.reverse_cons, List.append_assoc]
      rfl
    · have head := spelled (UInt16.ofNat (Frame.deltaFrom previous f.offset))
      rw [UInt16.toNat_ofNat_of_lt' short] at head
      have whole := Follows.cons head (stands.symm ▸ follows)
      rwa [stands] at whole

theorem gaps_of_frameBytes {acc parts : List Bytes} (words : ∀ f ∈ frames, f.offset < 2 ^ 64)
    (nonneg : ∀ d ∈ Frame.gaps previous frames, 0 ≤ d)
    (h : frameBytes previous frames acc = .ok parts) :
    ∀ d ∈ Frame.gaps previous frames, d < 65536 := by
  induction frames generalizing previous acc with
  | nil => exact List.forall_mem_nil _
  | cons f fs ih =>
    obtain ⟨word, words⟩ := List.forall_mem_cons.1 words
    obtain ⟨nonneg, later⟩ := List.forall_mem_cons.1 nonneg
    rw [frameBytes] at h
    split at h
    · rename_i short
      refine List.forall_mem_cons.2 ⟨?_, ih words later h⟩
      rw [(delta_of_gap word nonneg).1]
      exact Int.ofNat_lt.2 short
    · cases h

/-- Frames stand one behind the other, also when they are moved. -/
theorem nonneg_of_follows (h : Follows previous frames bs) (rises : StrictMono move) :
    ∀ d ∈ Frame.gaps (previous.map move) (frames.map (·.mapOffsets move)), 0 ≤ d := by
  induction h with
  | nil => exact List.forall_mem_nil _
  | @cons previous delta shape fs bs rest spelled behind ih =>
    refine List.forall_mem_cons.2 ⟨?_, ih⟩
    cases previous with
    | none => exact Int.natCast_nonneg _
    | some prior =>
      have := rises (show prior < prior + delta + 1 by omega)
      simp only [Option.map_some, Frame.gap, Frame.mapOffsets, Frame.offsetAt]
      omega

theorem shaped_of_follows (h : Follows previous frames bs) (move : Nat → Nat) :
    ∀ f ∈ frames.map (·.mapOffsets move), ∀ delta : UInt16,
      f.shape.Spells delta.toNat (Frame.shapeBytes delta f.shape) := by
  induction h with
  | nil => exact List.forall_mem_nil _
  | cons spelled behind ih => exact List.forall_mem_cons.2 ⟨spelled.shapeBytes move, ih⟩

theorem offsetAt_lt {delta : Nat} (small : delta < 65536) :
    Frame.offsetAt previous delta < previous.elim 0 (· + 1) + 65536 := by
  cases previous with
  | none => simpa [Frame.offsetAt] using small
  | some prior =>
    simp only [Frame.offsetAt, Option.elim]
    omega

theorem offset_lt_of_follows (h : Follows previous frames bs) :
    ∀ f ∈ frames, f.offset < previous.elim 0 (· + 1) + 65536 * frames.length := by
  induction h with
  | nil => exact List.forall_mem_nil _
  | @cons previous delta shape fs bs rest spelled behind ih =>
    have head : Frame.offsetAt previous delta < previous.elim 0 (· + 1) + 65536 :=
      offsetAt_lt spelled.delta_lt
    refine List.forall_mem_cons.2 ⟨?_, fun f mem => ?_⟩
    · exact head.trans_le (Nat.add_le_add_left (Nat.le_mul_of_pos_right _ (Nat.succ_pos _)) _)
    · have later := ih f mem
      rw [Option.elim_some] at later
      rw [List.length_cons]
      omega

/-- The offsets of a stack map have 32 bits, since there are few frames. -/
theorem Spells.offset_lt (h : Spells frames data) : ∀ f ∈ frames, f.offset < 2 ^ 32 := by
  obtain ⟨few, bs, follows, -⟩ := h
  intro f mem
  have small := offset_lt_of_follows follows f mem
  rw [Option.elim_none] at small
  omega

/-- Moved frames are written just if their distances have sixteen bits. -/
theorem write_eq_ok (h : Spells frames data) (rises : StrictMono move)
    (words : ∀ f ∈ frames.map (·.mapOffsets move), f.offset < 2 ^ 64) :
    (∀ d ∈ Frame.gaps none (frames.map (·.mapOffsets move)), d < 65536) ↔
      ∃ out, write (frames.map (·.mapOffsets move)) = .ok out := by
  obtain ⟨few, bs, follows, -⟩ := h
  have nonneg := nonneg_of_follows follows rises
  constructor
  · intro fits
    obtain ⟨parts, written, -⟩ := follows_frameBytes [] words nonneg fits
      (shaped_of_follows follows move)
    exact ⟨_, except_bind_eq_ok.2 ⟨_, written, rfl⟩⟩
  · rintro ⟨out, written⟩
    obtain ⟨parts, written, -⟩ := except_bind_eq_ok.1 written
    exact gaps_of_frameBytes words nonneg written

theorem spells_of_write {out : Bytes} (h : Spells frames data) (rises : StrictMono move)
    (words : ∀ f ∈ frames.map (·.mapOffsets move), f.offset < 2 ^ 64)
    (written : write (frames.map (·.mapOffsets move)) = .ok out) :
    Spells (frames.map (·.mapOffsets move)) out := by
  have fits := (write_eq_ok h rises words).2 ⟨out, written⟩
  obtain ⟨few, bs, follows, -⟩ := h
  obtain ⟨parts, made, follows⟩ := follows_frameBytes [] words (nonneg_of_follows follows rises)
    fits (shaped_of_follows follows move)
  obtain ⟨parts', made', done⟩ := except_bind_eq_ok.1 written
  obtain rfl : parts' = parts := Except.ok.inj (made'.symm.trans made)
  obtain rfl := Except.ok.inj done
  exact ⟨by rwa [List.length_map], _, follows, rfl⟩

/-! ## Frames that are moved -/

/-- Where an offset stands behind an insertion, however large the number is. -/
def shifted (place amount offset : Nat) : Nat :=
  if place ≤ offset then offset + amount else offset

variable {place amount : Nat}

theorem moved_of_lt {offset : Nat} (word : offset + amount < 2 ^ 64) :
    moved place amount offset = shifted place amount offset := by
  unfold moved shifted
  split
  · rw [UInt64.toNat_add, UInt64.toNat_ofNat', UInt64.toNat_ofNat']
    omega
  · rfl

theorem shifted_strictMono (place amount : Nat) : StrictMono (shifted place amount) := by
  intro a b less
  unfold shifted
  split <;> split <;> omega

theorem shifted_shifted (place amount more : Nat) :
    shifted place more ∘ shifted place amount = shifted place (amount + more) := by
  funext offset
  by_cases behind : place ≤ offset
  · have still : place ≤ offset + amount := Nat.le_add_right_of_le behind
    simp [shifted, behind, still, Nat.add_assoc]
  · simp [shifted, behind]

/-- The frames that bytes spell are unique, since they are what is read. -/
theorem Spells.unique {frames' : List Frame} (h : Spells frames data) (h' : Spells frames' data) :
    frames' = frames := by
  -- moved nowhere, all frames fit
  have read {frames : List Frame} (h : Spells frames data) :
      (StackMap.read id).parse data = .ok frames := by
    refine parse_read_eq_ok.2 ⟨frames, h, fun f _ t _ => t.fits_id, ?_⟩
    rw [List.map_congr_left fun f _ => f.mapOffsets_id, List.map_id']
  exact Except.ok.inj ((read h').symm.trans (read h))

/-- The frames of a stack map, with room for the amount behind their offsets, are moved by it. -/
theorem Spells.map_moved (h : Spells frames data) (room : amount + 2 ^ 32 ≤ 2 ^ 64) :
    frames.map (·.mapOffsets (moved place amount)) =
      frames.map (·.mapOffsets (shifted place amount)) := by
  refine List.map_congr_left fun f mem => ?_
  have small := h.offset_lt f mem
  unfold Frame.mapOffsets
  rw [moved_of_lt (by omega), FrameShape.mapOffsets_congr fun o few => moved_of_lt (by omega)]

theorem Spells.words_shifted (h : Spells frames data) (room : amount + 2 ^ 32 ≤ 2 ^ 64) :
    ∀ f ∈ frames.map (·.mapOffsets (shifted place amount)), f.offset < 2 ^ 64 := by
  refine List.forall_mem_map.2 fun f mem => ?_
  have small := h.offset_lt f mem
  simp only [Frame.mapOffsets, shifted]
  split <;> omega

theorem shift_eq_ok {out : Bytes} (room : amount + 2 ^ 32 ≤ 2 ^ 64) :
    shift place amount data = .ok out ↔
      ∃ frames, Spells frames data ∧ Fits (shifted place amount) frames ∧
        write (frames.map (·.mapOffsets (shifted place amount))) = .ok out := by
  have types {t : VerificationType} : t.Fits (moved place amount) ↔ t.Fits (shifted place amount) :=
    VerificationType.fits_congr fun o few => moved_of_lt (by omega)
  constructor
  · intro h
    obtain ⟨_, read, written⟩ := except_bind_eq_ok.1 h
    obtain ⟨frames, spelled, fits, rfl⟩ := parse_read_eq_ok.1 read
    rw [spelled.map_moved room] at written
    refine ⟨frames, spelled, ⟨?_, fun f mem t typed => types.1 (fits f mem t typed)⟩, written⟩
    exact (write_eq_ok spelled (shifted_strictMono place amount)
      (spelled.words_shifted room)).2 ⟨out, written⟩
  · rintro ⟨frames, spelled, fits, written⟩
    refine except_bind_eq_ok.2 ⟨_, parse_read_eq_ok.2 ⟨frames, spelled, ?_, rfl⟩, ?_⟩
    · exact fun f mem t typed => types.2 (fits.types f mem t typed)
    · rwa [spelled.map_moved room]

/-- A shift moves the frames of a stack map and the offsets in their types, and it fails just if the
bytes spell no frames or a number has no room. Shifts at one place add up. -/
theorem shift_moves (place : Nat) {amount : Nat} (room : amount + 2 ^ 32 ≤ 2 ^ 64) (data : Bytes) :
    (∀ frames frames', Spells frames data → Spells frames' data → frames' = frames) ∧
    ((∃ out, shift place amount data = .ok out) ↔
      ∃ frames, Spells frames data ∧ Fits (shifted place amount) frames) ∧
    (∀ frames, Spells frames data →
      (∀ d ∈ Frame.gaps none (frames.map (·.mapOffsets (shifted place amount))), 0 ≤ d) ∧
      ∀ out, shift place amount data = .ok out →
        Spells (frames.map (·.mapOffsets (shifted place amount))) out) ∧
    ∀ more once twice whole, amount + more + 2 ^ 32 ≤ 2 ^ 64 →
      shift place amount data = .ok once → shift place more once = .ok twice →
      shift place (amount + more) data = .ok whole → twice = whole := by
  have rises := shifted_strictMono place amount
  refine ⟨fun _ _ spelled spelled' => spelled.unique spelled', ⟨?_, ?_⟩,
    fun frames spelled => ⟨?_, ?_⟩, ?_⟩
  · rintro ⟨out, done⟩
    obtain ⟨frames, spelled, fits, -⟩ := (shift_eq_ok room).1 done
    exact ⟨frames, spelled, fits⟩
  · rintro ⟨frames, spelled, fits⟩
    obtain ⟨out, written⟩ :=
      (write_eq_ok spelled rises (spelled.words_shifted room)).1 fits.distances
    exact ⟨out, (shift_eq_ok room).2 ⟨frames, spelled, fits, written⟩⟩
  · obtain ⟨-, bs, follows, -⟩ := spelled
    exact nonneg_of_follows follows rises
  · intro out done
    obtain ⟨frames', spelled', -, written⟩ := (shift_eq_ok room).1 done
    obtain rfl := spelled.unique spelled'
    exact spells_of_write spelled rises (spelled.words_shifted room) written
  · intro more once twice whole room' first second both
    obtain ⟨frames, spelled, fits, written⟩ := (shift_eq_ok room).1 first
    obtain ⟨frames', spelled', -, written'⟩ := (shift_eq_ok (by omega)).1 second
    obtain ⟨frames'', spelled'', -, written''⟩ := (shift_eq_ok room').1 both
    obtain rfl := spelled.unique spelled''
    -- what the second shift reads are the frames that the first one wrote
    have again := spells_of_write spelled rises (spelled.words_shifted room) written
    obtain rfl := again.unique spelled'
    have joined : (frames''.map (·.mapOffsets (shifted place amount))).map
        (·.mapOffsets (shifted place more)) =
          frames''.map (·.mapOffsets (shifted place (amount + more))) := by
      rw [List.map_map, ← shifted_shifted]
      exact List.map_congr_left fun f mem => f.mapOffsets_mapOffsets (fits.types f mem)
    rw [joined] at written'
    exact Except.ok.inj (written'.symm.trans written'')

/-- An amount without that room may wrap around, and then leads back. -/
theorem moved_back {offset back : Nat} (behind : place ≤ offset) (word : offset < 2 ^ 64)
    (some : 0 < back) (few : back ≤ offset) :
    moved place (2 ^ 64 - back) offset = offset - back := by
  rw [moved, if_pos behind, UInt64.toNat_add, UInt64.toNat_ofNat', UInt64.toNat_ofNat']
  omega

example : shift 0 (2 ^ 64 - 4) [0, 1, 5] = .ok [0, 1, 1] := by rfl

end StackMap

end Weft
