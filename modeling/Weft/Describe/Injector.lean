import Weft.Describe.Site
import Weft.Describe.Weave
import Weft.Injector.Basic

/-!
# Descriptions of injectors and of what they make
-/

namespace Weft

instance : Describe Handle where
  doc h := .record [("name", doc h.name), ("generation", doc h.generation),
    ("id", .num h.id.toNat), ("display", doc (toString h))]

instance : Describe DefinedImage where
  doc d := .record [("class", doc d.handle), ("modified", doc d.modified),
    ("helpers", doc d.helpers)]

/-- What became of an image, which is not shown if it is what it was. -/
def Transformed.describe (image : Bytes) (t : Transformed) : Doc :=
  .record [("modified", doc t.modified), ("injections", doc t.injections),
    ("primary", if t.primary == image then .text "unchanged" else doc (imageListing t.primary)),
    ("helpers", helperImages t.helpers)]

/-- A class with the lines of its members. -/
def ClassSite.brief (s : ClassSite) : Doc :=
  .record [("name", doc s.name), ("major", doc s.majorVersion),
    ("woven", doc (s.woven?.map fun w => (w.injector, w.modified))),
    ("fields", doc (s.fields.map fun f => f.access.line " " f.name f.type.descriptor)),
    ("methods", doc (s.methods.map fun m => m.access.line "" m.name m.descriptor.descriptor))]

/-- The latest definition of a class in a space. -/
def ClassSpace.describe (s : ClassSpace) (name : ClassName) : Doc :=
  let d? := s.get? name
  .record [("handle", doc (d?.map (·.handle))), ("image", doc (d?.map (Doc.blob ·.image))),
    ("site", doc (d?.map (·.site.brief))), ("live", doc (d?.bind (s.handleOf? ·.site))),
    ("size", doc s.size), ("empty", doc s.isEmpty)]

end Weft
