import Pagewright.Page.Source
import Pagewright.Site.Basic

/-!
The files that animations need besides the pages, and what a page needs to use them. Stylesheets
are imported, scripts are run by a mounted component, and motion props are part of the page.
-/

namespace Pagewright

/-- A file of a generated project, by its path from the root of the project. -/
structure SourceFile where
  path : String
  content : String
deriving DecidableEq, Repr

/-- The first file with a path. -/
def fileAt? (files : List SourceFile) (path : String) : Option SourceFile :=
  files.find? fun file => file.path = path

def stylesheetName : String := "animations.css"

/-- The folder with the scripts of a page, which is no route. -/
def scriptFolder : String := "_animations"

/-- A component that runs the script of each animation once it is mounted. -/
def scriptRunner (animations : List Animation) : String :=
  let imports := animations.mapIdx fun i a =>
    "import run" ++ toString i ++ " from './" ++ a.id ++ "';\n"
  let calls := animations.mapIdx fun i _ => "    run" ++ toString i ++ "();\n"
  "'use client';\n\nimport \x7b useEffect \x7d from 'react';\n" ++ String.join imports ++
    "\nexport default function Animations() \x7b\n  useEffect(() => \x7b\n" ++ String.join calls ++
    "  \x7d, []);\n\n  return null;\n\x7d\n"

def scriptFile (directory : String) (a : Animation) : SourceFile :=
  ⟨directory ++ "/" ++ scriptFolder ++ "/" ++ a.id ++ ".ts", a.scriptModule (a.scriptCode a.scriptSteps)⟩

/-- The files that the animations of a page need in its directory. -/
def animationFiles (directory : String) (animations : List Animation) : Backend → List SourceFile
  | .css =>
    if animations = [] then []
    else [⟨directory ++ "/" ++ stylesheetName, joinLines (animations.map Animation.stylesheet)⟩]
  | .script =>
    if animations = [] then []
    else animations.map (scriptFile directory) ++
      [⟨directory ++ "/" ++ scriptFolder ++ "/index.tsx", scriptRunner animations⟩]
  | .motion => []

/-- The options of a page that uses the files of its animations. -/
def PageOptions.ofAnimations (animations : List Animation) (backend : Backend) : PageOptions :=
  let plain : PageOptions := ⟨animations, backend, [], []⟩
  if animations = [] then plain
  else match backend with
    | .css => { plain with imports := ["import \"./" ++ stylesheetName ++ "\";"] }
    | .script =>
      { plain with
        imports := ["import Animations from \"./" ++ scriptFolder ++ "\";"]
        mounts := ["<Animations />"] }
    | .motion => plain

end Pagewright
