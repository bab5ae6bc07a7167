import Weft.Code.Opcode

/-!
# Instructions

An instruction of a decoded method body: an opcode with its operand, where jumps name labels
instead of distances. A body's code is a list of such instructions and of the labels between them.
-/

namespace Weft

/-- A place in the code of a method body. -/
structure Label where
  number : UInt32
  deriving DecidableEq, Hashable, Repr, Inhabited

instance : ToString Label := ⟨fun l => "L" ++ toString l.number⟩

/-- The label `n` places further on. -/
def Label.shift (n : UInt32) (l : Label) : Label := ⟨l.number + n⟩

/-- What an instruction carries beside its opcode. -/
inductive Operand where
  | none
  | byte (value : Int8)
  | arrayType (code : UInt8)
  | short (value : Int16)
  | local (index : UInt16)
  | increment (index : UInt16) (delta : Int16)
  | constant (index : UInt16)
  | invokeInterface (index : UInt16) (count : UInt8)
  | invokeDynamic (index : UInt16)
  | multiArray (index : UInt16) (dimensions : UInt8)
  | branch (target : Label)
  | tableSwitch (default : Label) (low : Int32) (targets : List Label)
  | lookupSwitch (default : Label) (pairs : List (Int32 × Label))
  deriving DecidableEq, Inhabited

namespace Operand

/-- The labels that control can move to. -/
def targets : Operand → List Label
  | branch target => [target]
  | tableSwitch default _ targets => default :: targets
  | lookupSwitch default pairs => default :: pairs.map (·.2)
  | _ => []

/-- The constant that the operand names. -/
def constantIndex? : Operand → Option UInt16
  | constant index | invokeDynamic index | invokeInterface index _ | multiArray index _ =>
    some index
  | _ => Option.none

/-- The operand with each label moved by `f`. -/
def mapLabels (f : Label → Label) : Operand → Operand
  | branch target => branch (f target)
  | tableSwitch default low targets => tableSwitch (f default) low (targets.map f)
  | lookupSwitch default pairs => lookupSwitch (f default) (pairs.map fun p => (p.1, f p.2))
  | operand => operand

/-- The operand as listings show it, after its opcode; switches show their extent only. -/
def text : Operand → String
  | none => ""
  | byte value => s!" {value}"
  | arrayType code => s!" {code}"
  | short value => s!" {value}"
  | «local» index => s!" {index}"
  | increment index delta => s!" {index} {delta}"
  | constant index | invokeDynamic index => s!" #{index}"
  | invokeInterface index count => s!" #{index} {count}"
  | multiArray index dimensions => s!" #{index} {dimensions}"
  | branch target => s!" {target}"
  | tableSwitch default low targets =>
    let high := low.toInt + targets.length - 1
    s!" {low}..{high} default {default}"
  | lookupSwitch default pairs =>
    let keys := pairs.length
    s!" {keys} keys default {default}"

end Operand

/-- An opcode with its operand. -/
structure Instruction where
  opcode : Opcode
  operand : Operand := .none
  deriving DecidableEq, Inhabited

instance : ToString Instruction := ⟨fun i => i.opcode.mnemonic ++ i.operand.text⟩

namespace Instruction

/-- The labels that control can move to. -/
def targets (i : Instruction) : List Label := i.operand.targets

/-- The constant that the instruction names. -/
def constantIndex? (i : Instruction) : Option UInt16 := i.operand.constantIndex?

/-- The instruction with each label moved by `f`. -/
def mapLabels (f : Label → Label) (i : Instruction) : Instruction :=
  { i with operand := i.operand.mapLabels f }

end Instruction

/-- An item of a method body's code. -/
inductive Item where
  | label (l : Label)
  | op (i : Instruction)
  deriving DecidableEq, Inhabited

namespace Item

/-- The instruction of the item. -/
def instruction? : Item → Option Instruction
  | op i => some i
  | label _ => none

/-- The item with each label moved by `f`. -/
def mapLabels (f : Label → Label) : Item → Item
  | label l => label (f l)
  | op i => op (i.mapLabels f)

end Item

end Weft
