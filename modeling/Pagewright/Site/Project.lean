import Pagewright.Site.Files

/-! Whole projects: the files of every page, and the manifest of the package. -/

namespace Pagewright

namespace Site

/-- The package that the animations of a site depend on. -/
def animationPackages (s : Site) : List (String × String) :=
  if s.animations = [] then []
  else match s.backend with
    | .motion => [("framer-motion", "^10.16.0")]
    | .script => [("gsap", "^3.12.0")]
    | .css => []

/-- The packages that a site depends on, in alphabetical order. -/
def dependencies (s : Site) : List (String × String) :=
  s.animationPackages ++ [("next", "^14.0.0"), ("react", "^18.2.0"), ("react-dom", "^18.2.0")]

def manifest (s : Site) : String :=
  let strings (entries : List (String × String)) : Json :=
    .object (entries.map fun (key, value) => (key, .string value))
  (Json.object [
    ("dependencies", strings s.dependencies),
    ("name", .string s.slug),
    ("private", .bool true),
    ("scripts", strings [("build", "next build"), ("dev", "next dev"), ("start", "next start")]),
    ("version", .string "0.1.0")]).pretty ++ "\n"

/-- The file of a page, which ends in the setting of its mode. -/
def pageFile (s : Site) (formatting : Formatting) (p : Page) : Except SiteError SourceFile := do
  let options := PageOptions.ofAnimations (s.animationsFor p) s.backend
  let source ← (p.source formatting options).mapError SiteError.format
  let config := p.routeConfig
  return ⟨p.directory ++ "/page.tsx", if config = "" then source else source ++ "\n" ++ config ++ "\n"⟩

/-- The file with the layout around a page, if the site has one. -/
def layoutFiles (s : Site) (formatting : Formatting) (p : Page) :
    Except SiteError (List SourceFile) :=
  if s.hasAuth then
    ((p.layoutSource formatting).mapError SiteError.format).map fun source =>
      [⟨p.directory ++ "/layout.tsx", source⟩]
  else .ok []

def pageFiles (s : Site) (formatting : Formatting) (p : Page) : Except SiteError (List SourceFile) := do
  let page ← s.pageFile formatting p
  let layout ← s.layoutFiles formatting p
  return page :: layout ++ animationFiles p.directory (s.animationsFor p) s.backend

/-- The files of pages in order. A page must be valid and have a slug that no page before it
has. -/
def filesOfPages (s : Site) (formatting : Formatting) (slugs : List String) :
    List Page → Except SiteError (List SourceFile)
  | [] => .ok []
  | p :: rest => do
    p.validate.mapError SiteError.page
    if p.slug ∈ slugs then throw (.duplicateSlug p.slug)
    let files ← s.pageFiles formatting p
    let more ← s.filesOfPages formatting (p.slug :: slugs) rest
    return files ++ more

/-- The project of a site: the files of its pages and the manifest, in the order in which they
are generated. The slug of the site and the ids of its animations are checked first. -/
def project (s : Site) (formatting : Formatting) : Except SiteError (List SourceFile) := do
  if !isSlug s.slug then throw (.page (.invalidSlug s.slug))
  if let some a := s.animations.find? fun a => !isAnimationId a.id then
    throw (.invalidAnimationId a.id)
  let files ← s.filesOfPages formatting [] s.pages
  return files ++ [⟨"package.json", s.manifest⟩]

end Site

end Pagewright
