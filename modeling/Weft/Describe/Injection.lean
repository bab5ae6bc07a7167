import Weft.Describe.Site
import Weft.Visitor.Composer

/-!
# Descriptions of injections and compositions
-/

namespace Weft

variable {σ : Type}

/-- What tells injections of one kind apart is described, callbacks are not. -/
instance : Describe (Injection σ) where
  doc
    | .addField f => .tagged "AddField" [doc f.name, doc f.isConstant, doc f.initial.text]
    | .addMethod m => .tagged "AddMethod" [doc m.name, doc m.descriptor]
    | i => .tagged i.kind.name [doc i.target.word]

instance : Describe (Composition σ) where
  doc c := .record [("class", doc c.site.name), ("len", doc c.length), ("empty", doc c.isEmpty),
    ("additions", doc c.additions),
    ("fields", .list (c.fields.map fun (f, is) => .list [doc f.display, doc is])),
    ("methods", .list (c.methods.map fun (m, is) => .list [doc m.display, doc is]))]

end Weft
