import Weft.Code.Decode
import Weft.Describe.ClassFile

/-!
# Descriptions of method bodies

A body is a record of its code, with one text for each item, and of its tables. A listing of a class
names its members, and describes the bodies of its methods.
-/

namespace Weft

instance : Describe Label := ⟨fun l => .text (toString l)⟩

/-- The targets of a switch as listings show them. -/
def Operand.targetText : Operand → String
  | .tableSwitch _ _ targets => " [" ++ " ".intercalate (targets.map toString) ++ "]"
  | .lookupSwitch _ pairs =>
    " [" ++ " ".intercalate (pairs.map fun (key, l) => toString key ++ ":" ++ toString l) ++ "]"
  | _ => ""

instance : Describe Item where
  doc
    | .label l => .text (toString l ++ ":")
    | .op i => .text (toString i ++ i.operand.targetText)

instance : Describe Handler :=
  ⟨fun h => .list [doc h.start, doc h.stop, doc h.target, doc h.catchType]⟩

instance : Describe LocalRange :=
  ⟨fun v => .list [doc v.start, doc v.stop, doc v.name, doc v.descriptor, doc v.index]⟩

/-- Code of at most 400 items is described item by item, longer code by its length. -/
instance : Describe Body where
  doc b := .record [("max_stack", doc b.maxStack), ("max_locals", doc b.maxLocals),
    ("labels", doc b.labelCount),
    ("code", if b.code.length ≤ 400 then doc b.code else .record [("count", doc b.code.length)]),
    ("handlers", doc b.handlers), ("lines", doc b.lines), ("locals", doc b.locals)]

/-- The flags of a member with its name and its descriptor, which `separator` stands between. -/
def Access.line (a : Access) (separator : String) (name descriptor : String) : String :=
  Text.hexPadded 4 a.bits.toNat ++ " " ++ name ++ separator ++ descriptor

/-- A member of a class as listings show it. -/
def Member.line (p : Pool) (m : Member) : String :=
  let text (index : UInt16) := (p.utf8 index).toOption.getD "?"
  m.access.line "" (text m.name) (text m.descriptor)

/-- The listing of a class. -/
def ClassFile.listing (c : ClassFile) : Doc :=
  .record [("fields", doc (c.fields.map (Member.line c.pool))),
    ("methods", .list (c.methods.map fun m =>
      .list [doc (m.line c.pool), doc (m.code?.map fun code => Body.ofCode code c.pool)]))]

end Weft
