import Weft.Site.Cache
import Weft.Weave.Image

/-!
# Backends

A backend decodes images into sites, which it caches until they are released, and makes woven images
of plans. It says which kinds of injection it can weave.
-/

namespace Weft

/-- What an injector decodes and weaves with. -/
structure Backend where
  cache : SiteCache
  supported : Kinds
  /-- The number of images that were asked for. -/
  asked : Nat := 0

namespace Backend

/-- A backend without images that weaves all kinds. -/
def make (options : DecodeOptions) (supported : Kinds) : Backend :=
  { cache := { options }, supported }

/-- The site of the class in an image. -/
def decode (image : Bytes) : Edit Backend ClassSite := fun b =>
  let b := { b with asked := b.asked + 1 }
  (SiteCache.materialize b.asked image).zoom Backend.cache (fun cache b => { b with cache }) b

/-- Forgets a site. -/
def release (s : ClassSite) (b : Backend) : Backend :=
  { b with cache := (SiteCache.evict s.artifact b.cache).2 }

end Backend

end Weft
