import Pagewright.Markup.Render
import Pagewright.Page.Metadata
import Pagewright.Page.Template
import Pagewright.Source.Formatter

/-! The source of a page: directive, imports, metadata and component. -/

namespace Pagewright

/-- What goes into a page besides the page itself: the animations of its elements and how they are
rendered, further import lines, and further markup behind the layout. -/
structure PageOptions where
  animations : List Animation
  backend : Backend
  imports : List String
  mounts : List String

namespace Page

/-- Whether the page needs the directive for code in the browser. -/
def needsClient (p : Page) (options : PageOptions) : Bool :=
  !options.animations.isEmpty || Forest.containsInteractive p.layout || p.mode = .client

/-- The import lines, those for images and motion only where they are needed. -/
def importLines (p : Page) (options : PageOptions) : List String :=
  ["import \x7b Metadata \x7d from \"next\";"] ++
    (if Forest.containsKind .image p.layout then ["import Image from \"next/image\";"] else []) ++
    (if !options.animations.isEmpty && options.backend = .motion then
      ["import \x7b motion \x7d from \"framer-motion\";"]
    else []) ++
    options.imports

/-- The markup of the layout and of what is mounted behind it. -/
def markupBlock (p : Page) (options : PageOptions) : String :=
  let bindings := Bindings.ofAnimations options.animations options.backend
  joinLines (Forest.markup bindings p.layout ++ options.mounts)

def component (p : Page) (options : PageOptions) : String :=
  (Template.page p.mode).fill (.ofPage p.name (p.markupBlock options))

/-- The parts of the source in order, before formatting. -/
def draft (p : Page) (options : PageOptions) : String :=
  (if p.needsClient options then "\"use client\";\n\n" else "") ++
    joinLines (p.importLines options) ++ "\n\n" ++ p.metadataSource ++ "\n\n" ++
    p.component options

def source (formatting : Formatting) (p : Page) (options : PageOptions) :
    Except FormatError String :=
  formatting.format "tsx" (p.draft options)

def layoutSource (formatting : Formatting) (p : Page) : Except FormatError String :=
  formatting.format "tsx" (Template.layout.fill (.ofPage p.name ""))

end Page

end Pagewright
