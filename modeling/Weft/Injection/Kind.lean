/-!
# Kinds of injection

What an injection does, where it applies, the order in which kinds apply, and sets of kinds.
-/

namespace Weft

/-- Where an injection applies. -/
inductive Target where
  | ofClass | ofField | ofMethod
  deriving DecidableEq, Repr, Inhabited

/-- The target in a word. -/
def Target.word : Target → String
  | ofClass => "class"
  | ofField => "field"
  | ofMethod => "method"

/-- How an injection changes what it applies to. -/
inductive Delta where
  | addition | modification | removal | nothing
  deriving DecidableEq, Repr, Inhabited

/-- The change in a word. -/
def Delta.word : Delta → String
  | addition => "ADDITION"
  | modification => "MODIFICATION"
  | removal => "REMOVAL"
  | nothing => "NONE"

/-- What an injection does. -/
inductive Kind where
  | addField | addMethod | ignoreMethod | preHook | postHook | replaceMethod | errorRecovery
  | nothing
  deriving DecidableEq, Repr, Inhabited

namespace Kind

/-- Every kind, in the order of their flags. -/
def all : List Kind :=
  [addField, addMethod, ignoreMethod, preHook, postHook, replaceMethod, errorRecovery, nothing]

/-- The name of the kind. -/
def name : Kind → String
  | addField => "AddField"
  | addMethod => "AddMethod"
  | ignoreMethod => "IgnoreMethod"
  | preHook => "PreHook"
  | postHook => "PostHook"
  | replaceMethod => "ReplaceMethod"
  | errorRecovery => "ErrorRecovery"
  | nothing => "None"

instance : ToString Kind := ⟨name⟩

/-- Where the kind applies; nowhere for the empty injection. -/
def target? : Kind → Option Target
  | addField | addMethod => some .ofClass
  | ignoreMethod | preHook | postHook | replaceMethod | errorRecovery => some .ofMethod
  | nothing => none

/-- How the kind changes its target. -/
def delta : Kind → Delta
  | addField | addMethod => .addition
  | ignoreMethod => .removal
  | preHook | postHook | replaceMethod | errorRecovery => .modification
  | nothing => .nothing

/-- The place of the kind in the order of application: removals first, hooks around the rest. -/
def rank : Kind → Nat
  | ignoreMethod => 0
  | preHook => 1
  | addField | addMethod | nothing => 2
  | replaceMethod | errorRecovery => 3
  | postHook => 4

/-- The bit of the kind in a set of kinds; the empty injection has none. -/
def flag : Kind → UInt8
  | addField => 0x01
  | addMethod => 0x02
  | ignoreMethod => 0x04
  | preHook => 0x08
  | postHook => 0x10
  | replaceMethod => 0x20
  | errorRecovery => 0x40
  | nothing => 0

end Kind

/-- A set of kinds, one bit each. -/
structure Kinds where
  bits : UInt8
  deriving DecidableEq, Repr, Inhabited

namespace Kinds

/-- Every kind. -/
def all : Kinds := ⟨0x7F⟩

/-- The set of the bits that stand for kinds. -/
def ofBits (bits : UInt8) : Kinds := ⟨bits &&& all.bits⟩

/-- The kind belongs to the set; the empty injection belongs to every set. -/
def supports (kinds : Kinds) (kind : Kind) : Bool :=
  kinds.bits &&& kind.flag == kind.flag

end Kinds

end Weft
