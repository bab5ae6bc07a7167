import Weft.Proofs.Code.Writing

/-!
# Layouts shrink

Code that stands in rooms, one for each item, is laid out so that no item stands behind its room. A
layout that gains bytes keeps them from there on, but up to three are lost at a switch, which is
padded to a multiple of four. So jumps get longer only over switches, and by three bytes at most:
where the jumps over switches have that much to spare, the layout is found, and takes no more than
the rooms.
-/

namespace Weft

/-- The item is a switch. -/
def Item.isSwitch : Item → Bool
  | .op i => i.isSwitch
  | .label _ => false

/-! ## Sizes -/

theorem Sized.size_of_plain {s : Sized} (plain : s.item.isSwitch = false) (offset offset' : Nat) :
    s.size offset = s.size offset' :=
  s.size_of_isSwitch (fun i is_op => by rwa [is_op] at plain) offset offset'

/-- A switch ends so many bytes behind the next multiple of four. -/
theorem Sized.size_of_switch {s : Sized} (switch : s.item.isSwitch = true) :
    ∃ n, ∀ offset, s.size offset = 1 + switchPadding offset + n := by
  obtain ⟨item, wide⟩ := s
  cases item with
  | label l => cases switch
  | op i =>
    obtain ⟨op, operand⟩ := i
    cases operand with
    | tableSwitch default low targets =>
      exact ⟨12 + 4 * targets.length, fun _ => Nat.add_assoc _ _ _⟩
    | lookupSwitch default pairs =>
      exact ⟨8 + 8 * pairs.length, fun _ => Nat.add_assoc _ _ _⟩
    | _ => cases switch

namespace Room

/-- The room is for the item, which has space where the room is. -/
def Fits (r : Room) (s : Sized) : Prop := s.item = r.item ∧ s.size r.offset ≤ r.length

/-- A switch is among the rooms from the first offset up to the second. -/
def SwitchWithin (rooms : List Room) (first second : Nat) : Prop :=
  ∃ r ∈ rooms, r.item.isSwitch = true ∧ first ≤ r.offset ∧ r.offset < second

/-- Behind `x`, which stands in for `o`, the place `x'` stands in for `o'`: it is before that, by no
less than `x` is before `o`, up to the bytes that switches take. -/
structure Draws (rooms : List Room) (x o x' o' : Nat) : Prop where
  later : x ≤ x'
  behind : o ≤ o'
  ahead : x' ≤ o'
  kept : (o - x) / 4 ≤ (o' - x') / 4
  plain : ¬SwitchWithin rooms o o' → o - x ≤ o' - x'

variable {rooms : List Room} {x o : Nat}

theorem Draws.refl (rooms : List Room) (ahead : x ≤ o) : Draws rooms x o x o :=
  ⟨Nat.le_refl _, Nat.le_refl _, ahead, Nat.le_refl _, fun _ => Nat.le_refl _⟩

theorem Draws.trans {x' o' x'' o'' : Nat} {more : List Room} (h : Draws rooms x o x' o')
    (h' : Draws more x' o' x'' o'') (subset : rooms ⊆ more) : Draws more x o x'' o'' where
  later := Nat.le_trans h.later h'.later
  behind := Nat.le_trans h.behind h'.behind
  ahead := h'.ahead
  kept := Nat.le_trans h.kept h'.kept
  plain free := by
    refine Nat.le_trans (h.plain ?_) (h'.plain ?_)
    · rintro ⟨r, mem, switch, first, second⟩
      exact free ⟨r, subset mem, switch, first, Nat.lt_of_lt_of_le second h'.behind⟩
    · rintro ⟨r, mem, switch, first, second⟩
      exact free ⟨r, mem, switch, Nat.le_trans h.behind first, second⟩

theorem Draws.mono {x' o' : Nat} {more : List Room} (h : Draws rooms x o x' o')
    (subset : rooms ⊆ more) : Draws more x o x' o' :=
  h.trans (.refl _ h.ahead) subset

/-- An item draws what is behind it as its room does. -/
theorem Fits.draws {r : Room} {s : Sized} (h : r.Fits s) (ahead : x ≤ r.offset) :
    Draws [r] x r.offset (x + s.size x) (r.offset + r.length) := by
  obtain ⟨same, space⟩ := h
  cases switch : r.item.isSwitch with
  | false =>
    rw [s.size_of_plain (same ▸ switch) r.offset x] at space
    constructor <;> omega
  | true =>
    -- the padding can differ, but both ends are so many bytes behind a multiple of four
    obtain ⟨n, size⟩ := Sized.size_of_switch (same ▸ switch)
    rw [size, switchPadding] at space
    rw [size, switchPadding]
    constructor
    case plain => exact fun free => absurd ⟨r, .head _, switch, Nat.le_refl _, by omega⟩ free
    all_goals omega

end Room

namespace Layout

open Room

variable {items : List Placed} {rooms : List Room} {start stop start' stop' : Nat}

/-- All places behind the start are drawn. -/
theorem Contiguous.draws (joined : Contiguous start items stop)
    (adjoined : Adjoin start' rooms stop')
    (held : List.Forall₂ (fun p r => r.Fits p.toSized) items rooms) (ahead : start ≤ start') :
    Draws rooms start start' stop stop' ∧
      ∀ a ∈ items.zip rooms, Draws rooms start start' a.1.offset a.2.offset := by
  induction held generalizing start start' with
  | nil =>
    obtain rfl : start = stop := joined
    obtain rfl : start' = stop' := adjoined
    exact ⟨.refl _ ahead, fun a mem => nomatch mem⟩
  | @cons p r items rooms head tail ih =>
    obtain ⟨rfl, joined⟩ := joined
    obtain ⟨rfl, adjoined⟩ := adjoined
    have first := (head.draws ahead).mono (List.cons_subset_cons r (List.nil_subset rooms))
    obtain ⟨total, each⟩ := ih joined adjoined first.ahead
    have behind {x o : Nat} (h : Draws rooms _ _ x o) : Draws (r :: rooms) _ _ x o :=
      first.trans (h.mono (List.subset_cons_self r rooms)) (List.Subset.refl _)
    refine ⟨behind total, fun a mem => ?_⟩
    rcases List.mem_cons.1 mem with rfl | mem
    · exact .refl _ ahead
    · exact behind (each a mem)

/-- A place draws the places behind it. -/
theorem Contiguous.draws_later (joined : Contiguous start items stop)
    (adjoined : Adjoin start' rooms stop')
    (held : List.Forall₂ (fun p r => r.Fits p.toSized) items rooms) (ahead : start ≤ start') :
    (items.zip rooms).Pairwise fun a b =>
      Draws rooms a.1.offset a.2.offset b.1.offset b.2.offset := by
  induction held generalizing start start' with
  | nil => exact .nil
  | @cons p r items rooms head tail ih =>
    have whole := joined.draws adjoined (.cons head tail) ahead
    obtain ⟨rfl, joined⟩ := joined
    obtain ⟨rfl, adjoined⟩ := adjoined
    have next := (head.draws ahead).ahead
    refine .cons (fun b mem => whole.2 b (List.mem_cons_of_mem _ mem)) ?_
    exact (ih joined adjoined next).imp fun h => h.mono (List.subset_cons_self r rooms)

/-! ## Distances -/

/-- A distance that three bytes more do not make too long. -/
def isSlack (distance : Int) : Bool :=
  -32765 ≤ distance && distance ≤ 32764

/-- The distance between rooms is short, and over a switch it is slack. -/
structure Reaches (rooms : List Room) (first second : Nat) : Prop where
  short : isShort ((second : Int) - first) = true
  slack : SwitchWithin rooms (min first second) (max first second) →
    isSlack ((second : Int) - first) = true

/-- What reaches from room to room reaches from place to place. -/
theorem isShort_of_reaches (joined : Contiguous start items stop)
    (adjoined : Adjoin start' rooms stop')
    (held : List.Forall₂ (fun p r => r.Fits p.toSized) items rooms) (ahead : start ≤ start')
    {a b : Placed × Room} (ha : a ∈ items.zip rooms) (hb : b ∈ items.zip rooms)
    (reaches : Reaches rooms a.2.offset b.2.offset) :
    isShort ((b.1.offset : Int) - a.1.offset) = true := by
  -- a pair in the order of the code, whichever of the two jumps to the other
  have forwards {a b : Placed × Room} (h : Draws rooms a.1.offset a.2.offset b.1.offset b.2.offset)
      (before : a.1.offset ≤ a.2.offset) :
      (Reaches rooms a.2.offset b.2.offset → isShort ((b.1.offset : Int) - a.1.offset) = true) ∧
        (Reaches rooms b.2.offset a.2.offset →
          isShort ((a.1.offset : Int) - b.1.offset) = true) := by
    obtain ⟨later, behind, ahead, kept, plain⟩ := h
    constructor
    all_goals
      rintro ⟨short, slack⟩
      simp only [isShort, isSlack, Bool.and_eq_true, decide_eq_true_eq] at short slack ⊢
      by_cases switch : SwitchWithin rooms a.2.offset b.2.offset
    · rw [Nat.min_eq_left behind, Nat.max_eq_right behind] at slack
      have := slack switch
      omega
    · have := plain switch
      omega
    · rw [Nat.min_eq_right behind, Nat.max_eq_left behind] at slack
      have := slack switch
      omega
    · have := plain switch
      omega
  have before := fun a ha => ((joined.draws adjoined held ahead).2 a ha).ahead
  have near : ∀ a ∈ items.zip rooms, ∀ b ∈ items.zip rooms, Reaches rooms a.2.offset b.2.offset →
      isShort ((b.1.offset : Int) - a.1.offset) = true := by
    have pairs := (joined.draws_later adjoined held ahead).imp_of_mem fun {a b} ha hb h =>
      forwards h (before a ha)
    refine List.Pairwise.forall_of_forall_of_flip (fun a ha _ => by simp [isShort]) ?_ ?_
    · exact pairs.imp fun h => h.1
    · exact pairs.imp fun h => h.2
  exact near a ha b hb reaches

/-! ## Rounds -/

/-- The rooms have labels for all jumps, which reach them or are in rooms for their wide forms. -/
def Spacious (rooms : List Room) : Prop :=
  ∀ r ∈ rooms, ∀ op target, r.item = .op ⟨op, .branch target⟩ →
    ∃ q ∈ rooms, q.item = .label target ∧
      (Reaches rooms r.offset q.offset ∨ canWiden op = true ∧ 5 ≤ r.length)

section Round

variable {l : Layout} (joined : Contiguous 0 l.items l.size)
  (labels : l.labels = labelOffsets l.items)
  (once : ((l.items.map (·.item)).filterMap Item.label?).Nodup) (adjoined : Adjoin 0 rooms stop)
  (spacious : Spacious rooms) (held : List.Forall₂ (fun p r => r.Fits p.toSized) l.items rooms)

include joined labels once adjoined spacious held

/-- A jump is widened only if its room is one for the wide form. -/
theorem widens_of_fits {p : Placed} {r : Room} (mem : (p, r) ∈ l.items.zip rooms) :
    ∃ w, l.widens p = .ok w ∧ r.Fits { p.toSized with wide := p.wide || w } := by
  have own : r.Fits p.toSized := (List.forall₂_iff_zip.1 held).2 mem
  unfold widens
  cases narrow : p.narrowBranch? with
  | none => exact ⟨false, rfl, by rwa [Bool.or_false]⟩
  | some jump =>
    obtain ⟨op, target⟩ := jump
    obtain ⟨item, -⟩ := narrowBranch?_eq_some.1 narrow
    obtain ⟨q, listed, label, reaches⟩ :=
      spacious r (List.of_mem_zip mem).2 op target (own.1 ▸ item)
    obtain ⟨p', -, mem'⟩ := forall₂_mem_right (mem_zip_of_held held) listed
    have label' : p'.item = .label target :=
      ((List.forall₂_iff_zip.1 held).2 mem').1.trans label
    have found : l.offsetOf target = .ok p'.offset := by
      have := (labelOffsets_eq_some_iff once).2 ⟨p', (List.of_mem_zip mem').1, label', rfl⟩
      rw [offsetOf, labels, this]
    have distance : l.distance p.offset target = .ok ((p'.offset : Int) - p.offset) :=
      distance_eq_ok.2 ⟨_, found, rfl⟩
    dsimp only
    by_cases short : isShort ((p'.offset : Int) - p.offset) = true
    · exact ⟨false, except_bind_eq_ok.2 ⟨_, distance, if_pos short⟩, by rwa [Bool.or_false]⟩
    rcases reaches with reaches | ⟨can, room⟩
    · exact absurd (isShort_of_reaches joined adjoined held (Nat.le_refl 0) mem mem' reaches) short
    · refine ⟨true, except_bind_eq_ok.2 ⟨_, distance, ?_⟩, own.1, ?_⟩
      · rw [if_neg short, if_pos can]
        rfl
      · rw [Bool.or_true]
        simp only [Sized.size, item, Instruction.size, if_true]
        exact room

/-- A round keeps everything in its room. -/
theorem widen_of_fits : ∃ sized changed, l.widen = .ok (sized, changed) ∧
    List.Forall₂ (fun s r => r.Fits s) sized rooms := by
  have widens := (mem_zip_of_held held).imp fun p r mem =>
    widens_of_fits joined labels once adjoined spacious held mem
  suffices round : ∃ widened, l.items.mapM (fun p => do return (p.toSized, ← l.widens p)) =
      .ok widened ∧ List.Forall₂ (fun s r => r.Fits s)
        (widened.map fun sw => { sw.1 with wide := sw.1.wide || sw.2 }) rooms by
    obtain ⟨widened, each, held⟩ := round
    exact ⟨_, _, except_bind_eq_ok.2 ⟨_, each, rfl⟩, held⟩
  -- the layout that jumps are measured in stays whole, only its items are taken apart
  clear joined labels once adjoined spacious held
  generalize l.items = items at widens
  induction widens with
  | nil => exact ⟨[], rfl, .nil⟩
  | @cons p r items rooms head _ ih =>
    obtain ⟨w, widens, fits⟩ := head
    obtain ⟨widened, each, held⟩ := ih
    rw [except_mapM_eq_ok] at each
    refine ⟨(p.toSized, w) :: widened, except_mapM_eq_ok.2 (.cons ?_ each), .cons fits held⟩
    rw [widens]
    rfl

end Round

/-- Code that stands in spacious rooms is laid out, and takes no more than they do. -/
theorem ofCode_of_fits {code : List Item} (once : (code.filterMap Item.label?).Nodup)
    (adjoined : Adjoin 0 rooms stop) (spacious : Spacious rooms) (small : stop ≤ limit)
    (held : List.Forall₂ (fun item r => r.Fits { item }) code rooms) :
    ∃ l, ofCode code = .ok l ∧ l.size ≤ stop := by
  have own : code = rooms.map (·.item) := by
    rw [map_eq_of_forall₂ held fun _ _ fits => fits.1.symm, List.map_id']
  have placed {sized : List Sized} (held : List.Forall₂ (fun s r => r.Fits s) sized rooms) :
      List.Forall₂ (fun p r => r.Fits p.toSized) (ofSized sized).items rooms := by
    rwa [← (contiguous_ofSized sized).1, List.forall₂_map_left_iff] at held
  have items {sized : List Sized} (held : List.Forall₂ (fun s r => r.Fits s) sized rooms) :
      (((ofSized sized).items.map (·.item)).filterMap Item.label?).Nodup := by
    rw [← map_eq_of_forall₂ (placed held) fun _ _ fits => fits.1.symm]
    exact own ▸ once
  have size {sized : List Sized} (held : List.Forall₂ (fun s r => r.Fits s) sized rooms) :
      (ofSized sized).size ≤ stop :=
    ((contiguous_ofSized sized).2.draws adjoined (placed held) (Nat.le_refl 0)).1.ahead
  have round {sized : List Sized} (held : List.Forall₂ (fun s r => r.Fits s) sized rooms) :=
    widen_of_fits (contiguous_ofSized sized).2 (labels_ofSized sized) (items held) adjoined spacious
      (placed held)
  refine ofCode_rule (I := fun sized => List.Forall₂ (fun s r => r.Fits s) sized rooms)
    (P := fun r => ∃ l, r = .ok l ∧ l.size ≤ stop) ?_ ?_ ?_ ?_ (List.forall₂_map_left_iff.2 held)
  · exact fun sized held large => absurd (Nat.le_trans (size held) small) (Nat.not_le.2 large)
  · intro sized e held failed
    obtain ⟨sized', changed, made, -⟩ := round held
    cases made.symm.trans failed
  · intro sized sized' held made
    obtain ⟨_, _, made', kept⟩ := round held
    cases made.symm.trans made'
    exact kept
  · exact fun sized _ held _ => ⟨_, rfl, size held⟩

end Layout

end Weft
