import Weft.Site.Method

/-!
# Sites of any kind
-/

namespace Weft

/-- A class, a field or a method as a site. -/
inductive Site where
  | ofClass (site : ClassSite)
  | ofField (site : FieldSite)
  | ofMethod (site : MethodSite)
  deriving Inhabited

namespace Site

/-- What the site is. -/
def target : Site → Target
  | ofClass _ => .ofClass
  | ofField _ => .ofField
  | ofMethod _ => .ofMethod

/-- What identifies the site. -/
def key : Site → SiteKey
  | ofClass s => s.key
  | ofField s => s.key
  | ofMethod s => s.key

/-- The name of the site; of a class, in internal form. -/
def name : Site → String
  | ofClass s => s.name.internal
  | ofField s => s.name
  | ofMethod s => s.name

/-- The descriptor of a member; of a class, nothing. -/
def descriptor : Site → String
  | ofClass _ => ""
  | ofField s => s.type.descriptor
  | ofMethod s => s.descriptor.descriptor

/-- The site as messages name it. -/
def display : Site → String
  | ofClass s => s.display
  | ofField s => s.display
  | ofMethod s => s.display

/-- The site does not appear in source text. -/
def isSynthetic : Site → Bool
  | ofClass s => s.isSynthetic
  | ofField s => s.isSynthetic
  | ofMethod s => s.isSynthetic

end Site

end Weft
