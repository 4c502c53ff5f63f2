import Pagewright.Document.Element
import Pagewright.Page.Basic

/-! Pages in documents. -/

namespace Pagewright

namespace Json

/-- Enters a member into members sorted by key; a key that is there takes the new value. -/
def insertSorted (key : String) (value : Json) : List (String × Json) → List (String × Json)
  | [] => [(key, value)]
  | member :: rest =>
    if key < member.1 then (key, value) :: member :: rest
    else if key = member.1 then (key, value) :: rest
    else member :: insertSorted key value rest

/-- Members sorted by key; of members with one key the last stays. -/
def sortMembers (members : List (String × Json)) : List (String × Json) :=
  members.foldl (fun sorted (key, value) => insertSorted key value sorted) []

/-- Free-form data in settled form: sorted keys at every depth, and no unusable literal. -/
def settle? : Decoder Json
  | limit + 1, .array items => (items.mapM (settle? limit)).map .array
  | limit + 1, .object members =>
    (members.mapM fun m => (settle? limit m.2).map (m.1, ·)).map fun members =>
      .object (sortMembers members)
  | 0, .array _ => none
  | 0, .object _ => none
  | _, .unusable => none
  | _, j => some j

end Json

def MetaValue.toDocument : MetaValue → Json
  | .list items => .array (items.map .string)
  | .text s => .string s
  | .number n => .number n
  | .bool b => .bool b
  | .other j => j

def PageMeta.toDocument (m : PageMeta) : Json :=
  .object (m.entries.map fun (key, value) => (key, value.toDocument))

def Page.toDocument (p : Page) : Json :=
  .object ([("id", .string p.id), ("name", .string p.name), ("slug", .string p.slug),
      ("renderMode", .string p.mode.name)] ++
    (p.metadata.map fun m => ("meta", m.toDocument)).toList ++
    [("layout", Forest.toDocument p.layout), ("isPublished", .bool p.isPublished)])

def pageFields : List String :=
  ["id", "name", "slug", "renderMode", "meta", "layout", "isPublished"]

namespace Decoder

/-- A metadata value: the first of the narrower forms that fits, or else free-form data. -/
def metaValue : Decoder MetaValue := fun limit j =>
  match list string limit j, scalar limit j with
  | some items, _ => some (.list items)
  | none, some (.text s) => some (.text s)
  | none, some (.number n) => some (.number n)
  | none, some (.bool b) => some (.bool b)
  | none, none => (Json.settle? limit j).map .other

def page : Decoder Page
  | 0, _ => none
  | limit + 1, j =>
    match slots? pageFields j with
    | some [id, name, slug, mode, metadata, layout, isPublished] => do
      let id ← required string limit id
      let name ← required string limit name
      let slug ← required string limit slug
      let mode ← optional .static (named RenderMode.all RenderMode.name) limit mode
      let metadata ← optional none (nullable (dict metaValue)) limit metadata
      let layout ← optional [] (list element) limit layout
      let isPublished ← optional false bool limit isPublished
      return ⟨id, name, slug, mode, metadata, layout, isPublished⟩
    | _ => none

end Decoder

end Pagewright
