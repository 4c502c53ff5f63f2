import Pagewright.Document.Animation
import Pagewright.Document.Page
import Pagewright.Site.Basic

/-! Sites in documents. -/

namespace Pagewright

def Site.toDocument (s : Site) : Json :=
  .object [("name", .string s.name), ("slug", .string s.slug), ("hasAuth", .bool s.hasAuth),
    ("animationBackend", .string s.backend.name), ("pages", .array (s.pages.map Page.toDocument)),
    ("animations", animationsDocument s.animations)]

def siteFields : List String :=
  ["name", "slug", "hasAuth", "animationBackend", "pages", "animations"]

namespace Decoder

def site : Decoder Site
  | 0, _ => none
  | limit + 1, j =>
    match slots? siteFields j with
    | some [name, slug, hasAuth, backend, pages, animations] => do
      let name ← required string limit name
      let slug ← required string limit slug
      let hasAuth ← optional false bool limit hasAuth
      let backend ← optional .css (named Backend.all Backend.name) limit backend
      let pages ← optional [] (list page) limit pages
      let animations ← optional [] (list animation) limit animations
      return ⟨name, slug, hasAuth, backend, pages, animations⟩
    | _ => none

end Decoder

end Pagewright
