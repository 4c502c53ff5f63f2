import Pagewright.Animation.Backend
import Pagewright.Page.Basic
import Pagewright.Source.Tidy

/-! Sites: pages, and the animations of elements on any of them. -/

namespace Pagewright

structure Site where
  name : String
  slug : String
  /-- Pages get a layout of their own around them. -/
  hasAuth : Bool
  backend : Backend
  pages : List Page
  animations : List Animation

inductive SiteError where
  | page (fault : PageError)
  | format (fault : FormatError)
  | invalidAnimationId (id : String)
  | duplicateSlug (slug : String)
deriving DecidableEq, Repr

def SiteError.message : SiteError → String
  | page fault => "Invalid page: " ++ fault.message
  | format fault => "Code formatting error: " ++ fault.message
  | invalidAnimationId id =>
    "Invalid animation id '" ++ id ++ "': expected letters, digits, hyphens and underscores"
  | duplicateSlug slug => "A page with slug '" ++ slug ++ "' already exists in this project"

/-- Whether a character may stand in the id of an animation that names a file. -/
def isAnimationIdChar (c : Char) : Bool := c.isAlphanum || c = '-' || c = '_'

/-- Whether an id can name a file: nonempty, of ASCII letters, digits, hyphens and underscores. -/
def isAnimationId (s : String) : Bool := s ≠ "" && s.toList.all isAnimationIdChar

/-- The animations whose element lives on a page, in order. -/
def Site.animationsFor (s : Site) (p : Page) : List Animation :=
  let ids := (Forest.preorder p.layout).map Element.id
  s.animations.filter fun a => ids.contains a.elementId

/-- The directory of a page; the index page lives at the root. -/
def Page.directory (p : Page) : String := if p.slug = "index" then "app" else "app/" ++ p.slug

end Pagewright
