import Pagewright.Json.Writer
import Pagewright.Page.Basic
import Pagewright.Text.Lines
import Pagewright.Text.Replace

/-! Page metadata as an exported object of generated code. -/

namespace Pagewright

def literalChar (c : Char) : String :=
  if c = '\\' then "\\\\" else if c = '\'' then "\\'" else if c = '\n' then "\\n" else c.toString

/-- A text as a single-quoted literal. -/
def quoteSingle (s : String) : String := "'" ++ replaceChars literalChar s ++ "'"

/-- A metadata value in generated code. Lists are written as lists, and everything else as a
literal of its printed form. -/
def MetaValue.literal : MetaValue → String
  | .list items => (Json.array (items.map Json.string)).compact
  | .text s => quoteSingle s
  | .number n => quoteSingle n.plainText
  | .bool b => quoteSingle (if b then "true" else "false")
  | .other (.array items) => (Json.array items).compact
  | .other j => quoteSingle j.compact

namespace Page

/-- The entries of the metadata object. A page without metadata has its name as the title. -/
def metadataEntries (p : Page) : List (String × MetaValue) :=
  match p.metadata with
  | none => [("title", .text p.name)]
  | some metadata => metadata.entries

def metadataSource (p : Page) : String :=
  "export const metadata: Metadata = \x7b\n" ++
    String.join (p.metadataEntries.map fun (key, value) =>
      "  " ++ key ++ ": " ++ value.literal ++ ",\n") ++ "\x7d;"

/-- The setting that is exported next to a page, if its mode has one. -/
def routeConfig (p : Page) : String :=
  match p.mode with
  | .static | .client => ""
  | .server => "export const dynamic = 'force-dynamic';"
  | .incremental =>
    "export const revalidate = 3600; // Revalidate at most once every hour"

end Page

end Pagewright
