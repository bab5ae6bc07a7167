import Weft.Proofs.Code.Building

/-!
# Depths of the operand stack

Control comes to places in code with certain depths of the operand stack: with none in use to the
start, with one to the start of a handler, and along the instructions with what they leave. A
builder follows one depth and notes those at labels. Where it writes nothing that control cannot
come to, and places no label behind a jump that it knows no depth of, the depths that it follows are
depths that control comes with. So the room that it finds is enough for every assignment of depths
that is consistent along the control flow, but for the exception at the start of a handler, which it
does not count, and it is never more than is needed.
-/

namespace Weft

/-- An item of code, with the slots that it takes off the stack and puts on it. -/
inductive Move where
  | label (l : Label)
  | op (i : Instruction) (pops pushes : Nat)

namespace Move

/-- What is written for the move. -/
def item : Move → Item
  | label l => .label l
  | op i _ _ => .op i

/-- The depth that the move leaves. -/
def after (depth : Nat) : Move → Nat
  | label _ => depth
  | op _ pops pushes => depth - pops + pushes

/-- Control can go on behind the move. -/
def continues : Move → Bool
  | label _ => true
  | op i _ _ => !i.opcode.endsFlow

/-- The labels that control can move to. -/
def targets : Move → List Label
  | label _ => []
  | op i _ _ => i.targets

end Move

/-- A place that control comes to: a position in the code, or wherever a label is placed. -/
inductive Spot where
  | position (k : Nat)
  | label (l : Label)

variable {ms ms' : List Move} {hs hs' : List Handler}

/-- Control comes to the spot with that many slots of the stack in use. -/
inductive Arrives (ms : List Move) (hs : List Handler) : Spot → Nat → Prop where
  | entry : Arrives ms hs (.position 0) 0
  | caught {h : Handler} (mem : h ∈ hs) : Arrives ms hs (.label h.target) 1
  | next {k x : Nat} {m : Move} (here : Arrives ms hs (.position k) x) (move : ms[k]? = some m)
      (continues : m.continues = true) : Arrives ms hs (.position (k + 1)) (m.after x)
  | jump {k x : Nat} {m : Move} {l : Label} (here : Arrives ms hs (.position k) x)
      (move : ms[k]? = some m) (mem : l ∈ m.targets) : Arrives ms hs (.label l) (m.after x)
  | placed {k x : Nat} {l : Label} (there : Arrives ms hs (.label l) x)
      (move : ms[k]? = some (.label l)) : Arrives ms hs (.position k) x

/-- An entry of a list with one more at its end is one of the list or the last one. -/
theorem getElem?_concat_eq_some {α : Type} {as : List α} {a c : α} {k : Nat}
    (h : (as ++ [a])[k]? = some c) : as[k]? = some c ∨ k = as.length ∧ c = a := by
  rw [List.getElem?_append] at h
  split at h
  · exact .inl h
  · rw [List.getElem?_singleton] at h
    split at h
    · cases h
      exact .inr ⟨by omega, rfl⟩
    · cases h

theorem getElem?_mono {α : Type} {as cs : List α} {a : α} {k : Nat}
    (h : as[k]? = some a) (longer : as <+: cs) : cs[k]? = some a := by
  obtain ⟨rest, rfl⟩ := longer
  rw [List.getElem?_append_left (List.getElem?_eq_some_iff.1 h).1, h]

/-- More code behind and more handlers take no way away. -/
theorem Arrives.mono {s : Spot} {x : Nat} (h : Arrives ms hs s x) (longer : ms <+: ms')
    (more : hs ⊆ hs') : Arrives ms' hs' s x := by
  induction h with
  | entry => exact .entry
  | caught mem => exact .caught (more mem)
  | next _ move continues ih => exact .next ih (getElem?_mono move longer) continues
  | jump _ move mem ih => exact .jump ih (getElem?_mono move longer) mem
  | placed _ move ih => exact .placed ih (getElem?_mono move longer)

/-- A move that control comes to leaves that depth. -/
def Leaves (ms : List Move) (hs : List Handler) (n : Nat) : Prop :=
  ∃ k m x, ms[k]? = some m ∧ Arrives ms hs (.position k) x ∧ Move.after x m = n

theorem Leaves.mono {n : Nat} (h : Leaves ms hs n) (longer : ms <+: ms') (more : hs ⊆ hs') :
    Leaves ms' hs' n := by
  obtain ⟨k, m, x, move, arrives, after⟩ := h
  exact ⟨k, m, x, getElem?_mono move longer, arrives.mono longer more, after⟩

/-- The depths before the moves are the only ones that control comes with. -/
def Consistent (ms : List Move) (hs : List Handler) (depth : Nat → Nat) : Prop :=
  ∀ k x, Arrives ms hs (.position k) x → depth k = x

namespace Builder

/-- The builder `b'` follows from `b` by steps that wrote the moves. No instruction is written where
control cannot come from the one before, nor one that leaves more than sixteen bits count; a label
that control cannot come to from before is the target of a jump or of a handler already. -/
inductive Follows (b : Builder) : List Move → Builder → Prop where
  | start : Follows b [] b
  | emit {ms : List Move} {b₁ b₂ : Builder} {opcode : Opcode} {operand : Operand}
      {pops pushes : UInt16} (before : Follows b ms b₁)
      (step : Build.emit opcode operand pops pushes b₁ = .ok () b₂) (live : b₁.reachable = true)
      (fits : b₁.depth.toNat - pops.toNat + pushes.toNat < 65536) :
      Follows b (ms ++ [.op ⟨opcode, operand⟩ pops.toNat pushes.toNat]) b₂
  | place {ms : List Move} {b₁ b₂ : Builder} {l : Label} (before : Follows b ms b₁)
      (step : Build.place l b₁ = .ok () b₂) (known : b₁.reachable = true ∨ l ∈ b₁.labelDepths) :
      Follows b (ms ++ [.label l]) b₂
  | handler {ms : List Move} {b₁ b₂ : Builder} {start stop target : Label}
      {caught : Option ClassName} (before : Follows b ms b₁)
      (step : Build.handler start stop target caught b₁ = .ok () b₂) : Follows b ms b₂
  | aside {ms : List Move} {b₁ : Builder} (before : Follows b ms b₁) (pool : Pool)
      (labelCount : UInt32) (nextLocal : UInt16) :
      Follows b ms { b₁ with pool, labelCount, nextLocal }

/-- The room on the stack that the builder answers for: what it counted, and the exception at the
start of a handler. -/
def room (b : Builder) : Nat := max b.maxDepth.toNat (min 1 b.handlers.length)

theorem room_mono {b b' : Builder} (counted : b.maxDepth ≤ b'.maxDepth)
    (more : b.handlers.length ≤ b'.handlers.length) : b.room ≤ b'.room := by
  have counted := UInt16.le_iff_toNat_le.1 counted
  unfold room
  omega

/-- Control comes to the spot with the depth, for which there is room. -/
structure Covers (ms : List Move) (b : Builder) (s : Spot) (x : Nat) : Prop where
  arrives : Arrives ms b.handlers s x
  low : x ≤ b.room

theorem Covers.mono {b b' : Builder} {s : Spot} {x : Nat} (h : b.Covers ms s x)
    (longer : ms <+: ms') (more : b.handlers ⊆ b'.handlers) (room : b.room ≤ b'.room) :
    b'.Covers ms' s x :=
  ⟨h.arrives.mono longer more, h.low.trans room⟩

/-- The depths that the builder follows are depths that control comes with, and there is room for
them and for those behind every move. -/
structure Tracks (ms : List Move) (b : Builder) : Prop where
  written : b.written = (ms.map Move.item).reverse
  here : b.reachable = true → b.Covers ms (.position ms.length) b.depth.toNat
  noted : ∀ l x, b.labelDepths[l]? = some x → b.Covers ms (.label l) x.toNat
  passed : ∀ k m, ms[k]? = some m → ∃ x, b.Covers ms (.position k) x ∧ m.after x ≤ b.room
  /-- What was counted is what some move leaves. -/
  needed : b.maxDepth = 0 ∨ Leaves ms b.handlers b.maxDepth.toNat

end Builder

namespace Build

variable {b b' : Builder}

theorem place_eq_ok {l : Label} (h : place l b = .ok () b') :
    b' = { b with
      written := .label l :: b.written
      depth := if b.reachable then b.depth else b.labelDepths.getD l 0
      reachable := true } := by
  cases h
  rfl

theorem handler_eq_ok {start stop target : Label} {caught : Option ClassName}
    (h : handler start stop target caught b = .ok () b') : ∃ pool catchType,
    b' = { b with
      pool
      handlers := ⟨start, stop, target, catchType⟩ :: b.handlers
      labelDepths := b.labelDepths.insert target 1 } := by
  cases caught <;> cases h <;> exact ⟨_, _, rfl⟩

/-- What is noted of a label was noted before, or is the depth at a branch to it. -/
theorem noteDepth_eq_some {depth x : UInt16} {l : Label} {targets : List Label}
    {depths : Std.HashMap Label UInt16} (h : (noteDepth depth depths targets)[l]? = some x) :
    depths[l]? = some x ∨ l ∈ targets ∧ x = depth := by
  induction targets generalizing depths with
  | nil => exact .inl h
  | cons t rest ih =>
    rcases ih h with noted | ⟨mem, rfl⟩
    · rw [Std.HashMap.getElem?_insertIfNew] at noted
      split at noted
      · rename_i new
        cases noted
        exact .inr ⟨List.mem_cons.2 (.inl (eq_of_beq new.1).symm), rfl⟩
      · exact .inl noted
    · exact .inr ⟨List.mem_cons_of_mem _ mem, rfl⟩

end Build

namespace Builder.Tracks

variable {b b' : Builder}

/-- At the start nothing is in use, and no label is noted. -/
theorem start (p : Pool) (locals : UInt16) : (Builder.start p locals).Tracks [] where
  written := rfl
  here _ := ⟨.entry, Nat.zero_le _⟩
  noted l x noted := by
    rw [show (Builder.start p locals).labelDepths = ∅ from rfl, Std.HashMap.getElem?_empty] at noted
    cases noted
  passed k m move := nomatch move
  needed := .inl rfl

/-- There is room for one more move if there is at its place and behind it. -/
theorem passed_concat {m : Move} {x : Nat} (h : b.Tracks ms)
    (kept : ∀ s x, b.Covers ms s x → b'.Covers (ms ++ [m]) s x) (room : b.room ≤ b'.room)
    (here : b'.Covers (ms ++ [m]) (.position ms.length) x) (low : m.after x ≤ b'.room) (k : Nat)
    (m' : Move) (move : (ms ++ [m])[k]? = some m') :
    ∃ x, b'.Covers (ms ++ [m]) (.position k) x ∧ m'.after x ≤ b'.room := by
  rcases getElem?_concat_eq_some move with move | ⟨rfl, rfl⟩
  · obtain ⟨x, covers, after⟩ := h.passed k m' move
    exact ⟨x, kept _ _ covers, after.trans room⟩
  · exact ⟨x, here, low⟩

theorem emit {opcode : Opcode} {operand : Operand} {pops pushes : UInt16} (h : b.Tracks ms)
    (step : Build.emit opcode operand pops pushes b = .ok () b') (live : b.reachable = true)
    (fits : b.depth.toNat - pops.toNat + pushes.toNat < 65536) :
    b'.Tracks (ms ++ [.op ⟨opcode, operand⟩ pops.toNat pushes.toNat]) := by
  obtain ⟨enough, made⟩ := Build.emit_eq_ok.1 step
  have depth : b'.depth = b.depth - pops + pushes := by rw [made]
  have maxDepth : b'.maxDepth = max b.maxDepth b'.depth := by rw [made]
  have handlers : b.handlers ⊆ b'.handlers := by rw [made]; exact List.Subset.refl _
  generalize same : Move.op ⟨opcode, operand⟩ pops.toNat pushes.toNat = m
  have after : m.after b.depth.toNat = b'.depth.toNat := by
    rw [depth, ← same, UInt16.toNat_add, UInt16.toNat_sub_of_le _ _ enough, Nat.mod_eq_of_lt fits]
    rfl
  have last : (ms ++ [m])[ms.length]? = some m := List.getElem?_concat_length
  have longer : ms <+: ms ++ [m] := List.prefix_append ms [m]
  have counted := maxDepth ▸ Builder.le_max b.maxDepth b'.depth
  have room : b.room ≤ b'.room := room_mono counted.1 (by rw [made])
  have low : b'.depth.toNat ≤ b'.room :=
    (UInt16.le_iff_toNat_le.1 counted.2).trans (Nat.le_max_left _ _)
  have kept (s : Spot) (x : Nat) (covers : b.Covers ms s x) : b'.Covers (ms ++ [m]) s x :=
    covers.mono longer handlers room
  have here := kept _ _ (h.here live)
  constructor
  case written =>
    rw [made, List.map_append, List.reverse_append, h.written, ← same]
    rfl
  case here =>
    intro continues
    have continues : m.continues = true := by
      rw [← continues, made, ← same]
      rfl
    rw [List.length_append, List.length_singleton, ← after]
    exact ⟨here.arrives.next last continues, after ▸ low⟩
  case noted =>
    intro l x noted
    rw [made] at noted
    rcases Build.noteDepth_eq_some noted with noted | ⟨mem, left⟩
    · exact kept _ _ (h.noted l x noted)
    · rw [left, ← depth, ← after]
      exact ⟨here.arrives.jump last (same ▸ mem), after ▸ low⟩
  case passed => exact h.passed_concat kept room here (after ▸ low)
  case needed =>
    rw [maxDepth]
    by_cases higher : b.maxDepth ≤ b'.depth
    · rw [show max b.maxDepth b'.depth = b'.depth from if_pos higher]
      exact .inr ⟨ms.length, m, _, last, here.arrives, after⟩
    · rw [show max b.maxDepth b'.depth = b.maxDepth from if_neg higher]
      exact h.needed.imp_right (·.mono longer handlers)

theorem place {l : Label} (h : b.Tracks ms) (step : Build.place l b = .ok () b')
    (known : b.reachable = true ∨ l ∈ b.labelDepths) : b'.Tracks (ms ++ [.label l]) := by
  have made := Build.place_eq_ok step
  have handlers : b'.handlers = b.handlers := by rw [made]
  have room : b.room = b'.room := by rw [made]; rfl
  have longer : ms <+: ms ++ [.label l] := List.prefix_append ms [.label l]
  have last : (ms ++ [.label l])[ms.length]? = some (.label l) := List.getElem?_concat_length
  have kept (s : Spot) (x : Nat) (covers : b.Covers ms s x) : b'.Covers (ms ++ [.label l]) s x :=
    covers.mono longer (handlers ▸ List.Subset.refl _) (Nat.le_of_eq room)
  have here : b'.Covers (ms ++ [.label l]) (.position ms.length) b'.depth.toNat := by
    by_cases live : b.reachable = true
    · rw [show b'.depth = b.depth by rw [made]; exact if_pos live]
      exact kept _ _ (h.here live)
    · obtain ⟨x, noted⟩ := Option.isSome_iff_exists.1
        (Std.HashMap.mem_iff_isSome_getElem?.1 (known.resolve_left live))
      have there := kept _ _ (h.noted l x noted)
      have depth : b'.depth = x := by
        rw [made, Std.HashMap.getD_eq_getD_getElem?, noted]
        exact if_neg live
      exact depth ▸ ⟨there.arrives.placed last, there.low⟩
  constructor
  case written =>
    rw [made, List.map_append, List.reverse_append, h.written]
    rfl
  case here =>
    intro _
    rw [List.length_append, List.length_singleton]
    exact ⟨here.arrives.next last rfl, here.low⟩
  case noted =>
    intro l x noted
    rw [made] at noted
    exact kept _ _ (h.noted l x noted)
  case passed => exact h.passed_concat kept (Nat.le_of_eq room) here here.low
  case needed =>
    rw [show b'.maxDepth = b.maxDepth by rw [made], handlers]
    exact h.needed.imp_right (·.mono longer (List.Subset.refl _))

theorem handler {start stop target : Label} {caught : Option ClassName} (h : b.Tracks ms)
    (step : Build.handler start stop target caught b = .ok () b') : b'.Tracks ms := by
  obtain ⟨pool, catchType, made⟩ := Build.handler_eq_ok step
  have handlers : b'.handlers = ⟨start, stop, target, catchType⟩ :: b.handlers := by rw [made]
  have maxDepth : b'.maxDepth = b.maxDepth := by rw [made]
  have room : b.room ≤ b'.room :=
    room_mono (maxDepth ▸ UInt16.le_refl _) (handlers ▸ Nat.le_succ _)
  have more : b.handlers ⊆ b'.handlers := handlers ▸ List.subset_cons_self _ _
  have kept (s : Spot) (x : Nat) (covers : b.Covers ms s x) : b'.Covers ms s x :=
    covers.mono (List.prefix_refl ms) more room
  constructor
  case written => rw [made, h.written]
  case here =>
    intro live
    rw [made] at live
    rw [show b'.depth = b.depth by rw [made]]
    exact kept _ _ (h.here live)
  case noted =>
    intro l x noted
    rw [made, Std.HashMap.getElem?_insert] at noted
    split at noted
    · rename_i new
      cases noted
      cases eq_of_beq new
      refine ⟨.caught (handlers ▸ List.mem_cons_self), ?_⟩
      have : 1 ≤ b'.handlers.length := by rw [handlers]; exact Nat.le_add_left 1 _
      show 1 ≤ b'.room
      unfold Builder.room
      omega
    · exact kept _ _ (h.noted l x noted)
  case passed =>
    intro k m move
    obtain ⟨x, covers, after⟩ := h.passed k m move
    exact ⟨x, kept _ _ covers, after.trans room⟩
  case needed =>
    rw [maxDepth]
    exact h.needed.imp_right (·.mono (List.prefix_refl ms) more)

/-- Only the pool, the labels that are handed out and the slots in use change. -/
theorem aside (h : b.Tracks ms) (pool : Pool) (labelCount : UInt32) (nextLocal : UInt16) :
    { b with pool, labelCount, nextLocal }.Tracks ms := by
  have kept {s : Spot} {x : Nat} (covers : b.Covers ms s x) :
      { b with pool, labelCount, nextLocal }.Covers ms s x := ⟨covers.arrives, covers.low⟩
  refine ⟨h.written, fun live => kept (h.here live), fun l x noted => kept (h.noted l x noted),
    fun k m move => ?_, h.needed⟩
  obtain ⟨x, covers, after⟩ := h.passed k m move
  exact ⟨x, kept covers, after⟩

end Builder.Tracks

namespace Builder.Follows

variable {p : Pool} {locals : UInt16} {b : Builder}

/-- However the builder follows from the start of a body, it tracks what was written. -/
theorem tracks (h : (Builder.start p locals).Follows ms b) : b.Tracks ms := by
  induction h with
  | start => exact .start p locals
  | emit _ step live fits ih => exact ih.emit step live fits
  | place _ step known ih => exact ih.place step known
  | handler _ step ih => exact ih.handler step
  | aside _ pool labelCount nextLocal ih => exact ih.aside pool labelCount nextLocal

/-- The body that is built is what the moves wrote. -/
theorem finish_code (h : (Builder.start p locals).Follows ms b) :
    (b.finish locals).code = ms.map Move.item := by
  rw [Builder.finish, h.tracks.written, List.reverse_reverse]

/-- Control comes to every instruction and label that was written. -/
theorem arrives (h : (Builder.start p locals).Follows ms b) {k : Nat} {m : Move}
    (move : ms[k]? = some m) : ∃ x, Arrives ms b.handlers (.position k) x := by
  obtain ⟨x, covers, -⟩ := h.tracks.passed k m move
  exact ⟨x, covers.arrives⟩

/-- A body has room on the stack for every assignment of depths that is consistent along the control
flow, before each of its instructions and behind it, if it has no handlers or needs room for
anything else than an exception at their starts. -/
theorem depth_le_maxStack (h : (Builder.start p locals).Follows ms b) {depth : Nat → Nat}
    (consistent : Consistent ms b.handlers depth)
    (counted : (b.finish locals).handlers = [] ∨ (b.finish locals).maxStack ≠ 0)
    {k : Nat} {m : Move} (move : ms[k]? = some m) : depth k ≤ (b.finish locals).maxStack.toNat ∧
      m.after (depth k) ≤ (b.finish locals).maxStack.toNat := by
  obtain ⟨x, covers, after⟩ := h.tracks.passed k m move
  rw [consistent k x covers.arrives]
  have room : b.room = (b.finish locals).maxStack.toNat := by
    refine Nat.max_eq_left ?_
    rcases counted with none | some
    · rw [List.reverse_eq_nil_iff.1 none]
      exact Nat.zero_le _
    · have : b.maxDepth.toNat ≠ 0 := fun zero => some (UInt16.toNat_inj.1 zero)
      omega
  exact ⟨room ▸ covers.low, room ▸ after⟩

/-- The room on the stack of a body is none, or what is in use behind one of its instructions. -/
theorem maxStack_needed (h : (Builder.start p locals).Follows ms b) {depth : Nat → Nat}
    (consistent : Consistent ms b.handlers depth) : (b.finish locals).maxStack = 0 ∨
      ∃ k m, ms[k]? = some m ∧ Move.after (depth k) m = (b.finish locals).maxStack.toNat := by
  refine h.tracks.needed.imp_right fun ⟨k, m, x, move, arrives, after⟩ => ?_
  exact ⟨k, m, move, (consistent k x arrives).symm ▸ after⟩

/-! ## An exception that is not counted -/

/-- An instruction that finds what it takes is written where control can come from the one
before. -/
theorem exists_emit {b₀ : Builder} (h : b₀.Follows ms b) (opcode : Opcode) (operand : Operand)
    (pops pushes : UInt16) (enough : pops ≤ b.depth) (live : b.reachable = true)
    (fits : b.depth.toNat - pops.toNat + pushes.toNat < 65536) :
    ∃ b', b₀.Follows (ms ++ [.op ⟨opcode, operand⟩ pops.toNat pushes.toNat]) b' ∧
      b'.depth = b.depth - pops + pushes ∧ b'.maxDepth = max b.maxDepth b'.depth ∧
      b'.reachable = !opcode.endsFlow ∧ b'.handlers = b.handlers :=
  ⟨_, h.emit (Build.emit_eq_ok.2 ⟨enough, rfl⟩) live fits, rfl, rfl, rfl, rfl⟩

/-- Where a handler starts behind a jump one slot is in use, and nothing more is counted. -/
theorem exists_handler {b₀ : Builder} (h : b₀.Follows ms b) (dead : b.reachable = false)
    (start stop target : Label) :
    ∃ b', b₀.Follows (ms ++ [.label target]) b' ∧ b'.depth = 1 ∧ b'.maxDepth = b.maxDepth ∧
      b'.reachable = true ∧ b'.handlers = ⟨start, stop, target, 0⟩ :: b.handlers := by
  have covered := h.handler (rfl : Build.handler start stop target none b = .ok () _)
  refine ⟨_, covered.place rfl (.inr Std.HashMap.mem_insert_self), ?_, rfl, rfl, rfl⟩
  exact (if_neg (by simp [dead])).trans Std.HashMap.getD_insert_self

/-- The moves of a body that returns, and whose handler drops the exception and returns. -/
def dropping : List Move :=
  [.label ⟨0⟩, .op ⟨.voidReturn, .none⟩ 0 0, .label ⟨1⟩, .op ⟨.pop, .none⟩ 1 0,
    .op ⟨.voidReturn, .none⟩ 0 0]

/-- The handler of that body. -/
def dropper : Handler := ⟨⟨0⟩, ⟨1⟩, ⟨1⟩, 0⟩

theorem follows_dropping : ∃ b, (Builder.start .empty 0).Follows dropping b ∧
    b.handlers = [dropper] ∧ b.maxDepth = 0 := by
  have entered := (start (b := .start .empty 0)).place (l := ⟨0⟩) rfl (.inl rfl)
  obtain ⟨b, returned, depth, counted, dead, bare⟩ :=
    entered.exists_emit .voidReturn .none 0 0 (by decide) rfl (by decide)
  obtain ⟨b₁, caught, depth₁, counted₁, live, handlers⟩ :=
    returned.exists_handler dead ⟨0⟩ ⟨1⟩ ⟨1⟩
  obtain ⟨b₂, dropped, depth₂, counted₂, live₂, same⟩ :=
    caught.exists_emit .pop .none 1 0 (by rw [depth₁]; decide) live (by rw [depth₁]; decide)
  rw [depth₁] at depth₂
  obtain ⟨b₃, done, depth₃, counted₃, -, same₃⟩ :=
    dropped.exists_emit .voidReturn .none 0 0 (by rw [depth₂]; decide) live₂
      (by rw [depth₂]; decide)
  refine ⟨b₃, done, ?_, ?_⟩
  · rw [same₃, same, handlers, bare]
    rfl
  · rw [counted₃, depth₃, counted₂, depth₂, counted₁, counted, depth]
    decide

/-- The depths before the moves of that body. -/
def droppingDepth (k : Nat) : Nat := if k = 2 ∨ k = 3 then 1 else 0

theorem consistent_dropping : Consistent dropping [dropper] droppingDepth := by
  suffices ∀ s x, Arrives dropping [dropper] s x → match s with
    | .position k => droppingDepth k = x
    | .label l => l = ⟨1⟩ ∧ x = 1 from fun k x arrives => this (.position k) x arrives
  intro s x arrives
  induction arrives with
  | entry => rfl
  | caught mem =>
    cases List.mem_singleton.1 mem
    exact ⟨rfl, rfl⟩
  | @next k x m here move continues ih =>
    subst ih
    match k with
    | 0 | 2 | 3 =>
      cases move
      rfl
    | 1 | 4 =>
      cases move
      cases continues
    | k + 5 => cases move
  | @jump k x m l here move mem ih =>
    match k with
    | 0 | 1 | 2 | 3 | 4 =>
      cases move
      cases mem
    | k + 5 => cases move
  | @placed k x l there move ih =>
    obtain ⟨rfl, rfl⟩ := ih
    match k with
    | 2 => rfl
    | 0 | 1 | 3 | 4 => cases move
    | k + 5 => cases move

/-- What the condition on handlers is for: a body that needs room for nothing but the exception that
its handler drops has none. -/
theorem maxStack_dropping : ∃ b, (Builder.start .empty 0).Follows dropping b ∧
    Consistent dropping b.handlers droppingDepth ∧
      (b.finish 0).maxStack.toNat < droppingDepth 3 := by
  obtain ⟨b, follows, handlers, maxDepth⟩ := follows_dropping
  refine ⟨b, follows, handlers ▸ consistent_dropping, ?_⟩
  show b.maxDepth.toNat < 1
  rw [maxDepth]
  decide

end Builder.Follows

end Weft
