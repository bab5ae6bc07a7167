import Weft.Describe.Code
import Weft.Describe.Error
import Weft.Describe.Signature
import Weft.Weave.Image

/-!
# Descriptions of plans and woven images
-/

namespace Weft

open Weave

instance : Describe FieldInit where
  doc
    | .default => .tagged "default" []
    | .constant value => .tagged "constant" [doc value]
    | .store value => .tagged "store" [doc value]
    | .callback token holder => .tagged "callback" [doc token, doc holder]

instance : Describe PlannedField where
  doc f := .record [("access", doc f.access), ("name", doc f.name), ("type", doc f.type),
    ("static", doc f.isStatic), ("init", doc f.init)]

instance : Describe PlannedMethod where
  doc m := .record [("access", doc m.access), ("name", doc m.name),
    ("descriptor", doc m.descriptor), ("throws", doc m.throws), ("token", doc m.token),
    ("static", doc m.isStatic), ("fields", doc m.fields), ("methods", doc m.methods)]

instance : Describe PlannedIntercept where
  doc i := .record [("site", doc i.site.display), ("len", doc i.length), ("token", doc i.token),
    ("original", doc i.keptAs), ("thunk", doc i.thunk)]

instance : Describe HelperKind where
  doc
    | .call method d isStatic => .tagged "call" [doc method, doc d, doc isStatic]
    | .field name t isStatic isFinal => .tagged "field" [doc name, doc t, doc isStatic, doc isFinal]
    | .method name d isStatic => .tagged "method" [doc name, doc d, doc isStatic]

instance : Describe Helper where
  doc h := .list [doc h.name, doc h.kind, doc h.kind.isStatic]

instance : Describe Plan where
  doc p := .record [("class", doc p.site.name), ("empty", doc p.isEmpty),
    ("injections", doc p.injections),
    ("options", .list [doc p.options.nestAttributes, doc p.options.stamp]),
    ("fields", doc p.fields), ("methods", doc p.methods), ("intercepts", doc p.intercepts),
    ("helpers", doc p.helpers)]

/-- The images of helper classes by name. -/
def helperImages (helpers : List (ClassName × Bytes)) : Doc :=
  .list (helpers.map fun (name, image) => .list [doc name, .blob image])

/-- An image with the listing of the class in it, if it can be decoded. -/
def imageListing (image : Bytes) : Except Error Doc := do
  let c ← ClassFile.ofBytes {} image
  return .record [("bytes", .blob image), ("listing", c.listing)]

instance : Describe WovenImages where
  doc w := .record [("primary", doc (imageListing w.primary)), ("helpers", helperImages w.helpers)]

end Weft
