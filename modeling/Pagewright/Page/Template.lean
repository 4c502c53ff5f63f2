import Pagewright.Json.Basic
import Pagewright.Page.Basic
import Pagewright.Text.Blank
import Pagewright.Text.Lines

/-! The fixed forms of page components, and the two rules that fill them. -/

namespace Pagewright

/-- Joins the runs of ASCII letters and digits, and capitalizes the first character of each. The
flag tells whether a run begins. -/
def joinTokens (begins : Bool) : List Char → List Char
  | [] => []
  | c :: rest =>
    if c.isAlphanum then (if begins then c.toUpper else c) :: joinTokens false rest
    else joinTokens true rest

/-- The component name of a page name. What would not begin with a letter gets a word before
it. -/
def componentName (name : String) : String :=
  let joined := joinTokens true name.toList
  match joined with
  | [] => "Page"
  | c :: _ => String.ofList (if c.isDigit then "Page".toList ++ joined else joined)

def indentBy (spaces : Nat) (line : List Char) : List Char :=
  if (trim line).isEmpty then line else List.replicate spaces ' ' ++ line

/-- Puts spaces before every line that is not blank. -/
def indentText (content : String) (spaces : Nat) : String :=
  joinLines ((lines content.toList).map fun line => String.ofList (indentBy spaces line))

/-- What a template is filled with: a name, and the markup if there is any. -/
structure TemplateData where
  name : String
  markup : Option String

namespace TemplateData

/-- The data of a page; empty markup counts as none. -/
def ofPage (name markup : String) : TemplateData :=
  ⟨name, if markup = "" then none else some markup⟩

def isSet : Json → Bool
  | .null | .unusable => false
  | .bool b => b
  | .int i => i ≠ 0
  | .number n => n.isNormal
  | .string s => s ≠ ""
  | .array items => !items.isEmpty
  | .object members => !members.isEmpty

/-- The text of a value, which is empty for all but text. -/
def textOf : Json → String
  | .string s => s
  | _ => ""

/-- Data given as a document. Markup that is set but is no text leaves room for nothing. -/
def ofMembers (members : List (String × Json)) : TemplateData :=
  ⟨((members.lookup "name").map textOf).getD "",
    ((members.lookup "markup").filter isSet).map textOf⟩

def mainBlock (d : TemplateData) : String :=
  let inner := match d.markup with
    | none => ""
    | some markup => "\n" ++ indentText markup 6 ++ "\n    "
  "    <main>" ++ inner ++ "</main>\n"

end TemplateData

/-- The forms: a page of each mode, and the layout around a page. -/
inductive Template where
  | page (mode : RenderMode)
  | layout
deriving DecidableEq, Repr

namespace Template

def staticPage (d : TemplateData) : String :=
  "export default function " ++ componentName d.name ++ "() \x7b\n" ++
    "  return (\n" ++
    d.mainBlock ++
    "  );\n" ++
    "\x7d\n"

def serverPage (d : TemplateData) : String :=
  "export default async function " ++ componentName d.name ++ "() \x7b\n" ++
    "  // Server-side data fetching goes here\n" ++
    "\n" ++
    "  return (\n" ++
    d.mainBlock ++
    "  );\n" ++
    "\x7d\n"

def incrementalPage (d : TemplateData) : String :=
  "export default function " ++ componentName d.name ++ "(\x7b data \x7d) \x7b\n" ++
    "  return (\n" ++
    d.mainBlock ++
    "  );\n" ++
    "\x7d\n" ++
    "\n" ++
    "export async function getStaticProps() \x7b\n" ++
    "  return \x7b\n" ++
    "    props: \x7b\n" ++
    "      data: \x7b\x7d,\n" ++
    "    \x7d,\n" ++
    "    revalidate: 3600,\n" ++
    "  \x7d;\n" ++
    "\x7d\n" ++
    "\n" ++
    "export async function getStaticPaths() \x7b\n" ++
    "  return \x7b\n" ++
    "    paths: [],\n" ++
    "    fallback: 'blocking',\n" ++
    "  \x7d;\n" ++
    "\x7d\n"

def clientPage (d : TemplateData) : String :=
  "'use client';\n" ++
    "\n" ++
    "import \x7b useState, useEffect \x7d from 'react';\n" ++
    "\n" ++
    "export default function " ++ componentName d.name ++ "() \x7b\n" ++
    "  const [isLoading, setIsLoading] = useState(true);\n" ++
    "\n" ++
    "  useEffect(() => \x7b\n" ++
    "    setIsLoading(false);\n" ++
    "  \x7d, []);\n" ++
    "\n" ++
    "  if (isLoading) \x7b\n" ++
    "    return <div>Loading...</div>;\n" ++
    "  \x7d\n" ++
    "\n" ++
    "  return (\n" ++
    d.mainBlock ++
    "  );\n" ++
    "\x7d\n"

def pageLayout (d : TemplateData) : String :=
  "export default function " ++ componentName d.name ++ "Layout(\x7b\n" ++
    "  children,\n" ++
    "\x7d: \x7b\n" ++
    "  children: React.ReactNode;\n" ++
    "\x7d) \x7b\n" ++
    "  return (\n" ++
    "    <div className=\"page-layout\">\n" ++
    "      \x7b/* Auth check could be added here */\x7d\n" ++
    "      \x7bchildren\x7d\n" ++
    "    </div>\n" ++
    "  );\n" ++
    "\x7d\n"

def fill : Template → TemplateData → String
  | page .static, d => staticPage d
  | page .server, d => serverPage d
  | page .incremental, d => incrementalPage d
  | page .client, d => clientPage d
  | layout, d => pageLayout d

def all : List Template := RenderMode.all.map page ++ [layout]

def name : Template → String
  | page mode => "page_" ++ String.ofList (mode.name.toList.map Char.toLower)
  | layout => "page_layout"

def ofName? (name : String) : Option Template := all.find? fun t => t.name = name

/-- The indentation that a parameter asks for: a whole number, or else two. -/
def spacesOf : Option Json → Nat
  | some (.int (.ofNat n)) => n
  | _ => 2

/-- The text that one of the two filling rules gives for parameters; without its parameters a
rule goes by an empty text and an indentation of two. -/
def applyRule? (rule : String) (params : List Json) : Option String :=
  let content := TemplateData.textOf (params.head?.getD .null)
  if rule = "component_name" then some (componentName content)
  else if rule = "indent" then some (indentText content (spacesOf params[1]?))
  else none

end Template

end Pagewright
