import Pagewright.Element.Parent
import Pagewright.Json.Basic

/-! Pages: an element tree with a name, an address and metadata. -/

namespace Pagewright

/-- When the code of a page runs. -/
inductive RenderMode where
  | static
  | server
  | incremental
  | client
deriving DecidableEq, Repr, Inhabited

namespace RenderMode

def all : List RenderMode := [static, server, incremental, client]

def name : RenderMode → String
  | static => "STATIC"
  | server => "SERVER"
  | incremental => "INCREMENTAL"
  | client => "CLIENT"

end RenderMode

/-- A metadata value: a list of words, a scalar, or any other data. -/
inductive MetaValue where
  | list (items : List String)
  | text (value : String)
  | number (value : Number)
  | bool (value : Bool)
  | other (value : Json)
deriving Inhabited

/-- Metadata in the order in which it was entered. -/
abbrev PageMeta := Dict MetaValue

namespace PageMeta

def title? (m : PageMeta) : Option String :=
  match m.get? "title" with
  | some (.text title) => some title
  | _ => none

def keywords? (m : PageMeta) : Option (List String) :=
  match m.get? "keywords" with
  | some (.list keywords) => some keywords
  | _ => none

end PageMeta

structure Page where
  id : String
  name : String
  slug : String
  mode : RenderMode
  metadata : Option PageMeta
  layout : Forest
  isPublished : Bool

def Page.bare (id name slug : String) : Page := ⟨id, name, slug, .static, none, [], false⟩

/-- Whether a character may stand in a slug: lowercase letters, digits and hyphens. -/
def isSlugChar (c : Char) : Bool := c.isLower || c.isDigit || c = '-'

/-- A slug is a nonempty text of slug characters. -/
def isSlug (s : String) : Bool := s ≠ "" && s.toList.all isSlugChar

inductive PageError where
  | invalidSlug (slug : String)
  | layout (fault : ForestError)
deriving DecidableEq, Repr

def PageError.message : PageError → String
  | invalidSlug slug =>
    "Invalid slug '" ++ slug ++ "': expected lowercase letters, digits and hyphens"
  | layout fault => fault.message

/-- Checks the slug, then that element ids are distinct, then that parents are recorded rightly. -/
def Page.validate (p : Page) : Except PageError Unit :=
  if !isSlug p.slug then .error (.invalidSlug p.slug)
  else match Forest.collectIds p.layout with
    | .error fault => .error (.layout fault)
    | .ok _ =>
      match Forest.checkParents p.layout with
      | .error fault => .error (.layout fault)
      | .ok () => .ok ()

end Pagewright
