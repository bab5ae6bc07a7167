import Weft.Code.Instruction

/-!
# Method bodies

The body of a method in a form that can be edited: its code is a list of instructions and labels,
and everything that refers to places in the code does so by label. `splice` inserts one body into
another and moves the inserted labels past those that are in use.
-/

namespace Weft

/-- A range of code whose exceptions of a class continue at another place. -/
structure Handler where
  start : Label
  stop : Label
  target : Label
  catchType : UInt16
  deriving DecidableEq, Inhabited

/-- The range of code over which a local slot holds a variable. -/
structure LocalRange where
  start : Label
  stop : Label
  name : UInt16
  descriptor : UInt16
  index : UInt16
  deriving DecidableEq, Inhabited

/-- The body of a method. -/
structure Body where
  maxStack : UInt16 := 0
  maxLocals : UInt16 := 0
  code : List Item := []
  handlers : List Handler := []
  lines : List (Label × UInt16) := []
  locals : List LocalRange := []
  /-- The number of labels that have been handed out. -/
  labelCount : UInt32 := 0
  deriving DecidableEq, Inhabited

/-- The handler with each label moved by `f`. -/
def Handler.mapLabels (f : Label → Label) (h : Handler) : Handler :=
  { h with start := f h.start, stop := f h.stop, target := f h.target }

namespace Body

/-- A label that the body does not use. -/
def newLabel (b : Body) : Label × Body :=
  (⟨b.labelCount⟩, { b with labelCount := b.labelCount + 1 })

/-- The instructions of the body, in order. -/
def instructions (b : Body) : List Instruction :=
  b.code.filterMap Item.instruction?

/-- The positions in the code of the instructions that `p` accepts. -/
def positions (b : Body) (p : Instruction → Bool) : List Nat :=
  b.code.zipIdx.filterMap fun (item, i) => if item.instruction?.any p then some i else none

/-- The body with a fragment inserted at a position. The handlers of the fragment come first, as the
innermost handler has to; lines and variables of the fragment are left out. -/
def splice (b : Body) (position : Nat) (fragment : Body) : Body :=
  let move := Label.shift b.labelCount
  { b with
    maxStack := max b.maxStack fragment.maxStack
    maxLocals := max b.maxLocals fragment.maxLocals
    code := b.code.take position ++
      (fragment.code.map (Item.mapLabels move) ++ b.code.drop position)
    handlers := fragment.handlers.map (Handler.mapLabels move) ++ b.handlers
    labelCount := b.labelCount + fragment.labelCount }

end Body

end Weft
