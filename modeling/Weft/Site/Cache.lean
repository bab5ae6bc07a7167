import Std.Data.HashMap
import Weft.Edit
import Weft.Site.Basic

/-!
# The cache of sites

A cache keeps one site for each artifact and remembers for each class name the artifact that was
inserted last. Evicting an artifact forgets the name only if it stands for that artifact.
-/

namespace Weft

/-- Sites by artifact, and artifacts by the name of their class. -/
structure SiteCache where
  options : DecodeOptions := {}
  sites : Std.HashMap ArtifactId ClassSite := ∅
  names : Std.HashMap ClassName ArtifactId := ∅
  deriving Inhabited

namespace SiteCache

/-- The number of artifacts. -/
def size (c : SiteCache) : Nat := c.sites.size

/-- The cache holds nothing. -/
def isEmpty (c : SiteCache) : Bool := c.sites.isEmpty

/-- The site of an artifact. -/
def get? (c : SiteCache) (artifact : ArtifactId) : Option ClassSite := c.sites[artifact]?

/-- The site of the class of that name that was inserted last. -/
def byName? (c : SiteCache) (name : ClassName) : Option ClassSite :=
  c.names[name]?.bind c.get?

/-- The site that is kept for the artifact of `s`, which is `s` unless there is one already. -/
def insert (s : ClassSite) : StateM SiteCache ClassSite := modifyGet fun c =>
  let kept := c.sites.getD s.artifact s
  (kept, { c with
    sites := c.sites.insertIfNew s.artifact s
    names := c.names.insert kept.name kept.artifact })

/-- The site of the class in an image, which is decoded unless it is cached. -/
def materialize (decoding : Nat) (image : Bytes) : Edit SiteCache ClassSite := do
  let c ← get
  match c.get? (Digest.sha1 image) with
  | some site => return site
  | none => insert (← ClassSite.ofBytes c.options decoding image)

/-- Forgets an artifact. -/
def evict (artifact : ArtifactId) : StateM SiteCache Unit := modify fun c =>
  match c.get? artifact with
  | none => c
  | some s =>
    { c with
      sites := c.sites.erase artifact
      names := if c.names[s.name]? = some artifact then c.names.erase s.name else c.names }

/-- The cache as listings show it. -/
def text (c : SiteCache) : String :=
  Text.labelled "SiteCache" [("artifacts", toString c.size)]

end SiteCache

end Weft
