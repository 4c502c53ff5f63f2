import Pagewright.Document.Decode
import Pagewright.Element.Basic
import Pagewright.Json.Writer

/-! Elements in documents. -/

namespace Pagewright

def scalarsDocument (d : Dict Scalar) : Json :=
  .object (d.entries.map fun (key, value) => (key, value.toDocument))

def textDocument (s : Option String) : Json := s.elim .null .string

/-- A member for a text, which is left out when the text is missing. -/
def textMember (key : String) (s : Option String) : List (String × Json) :=
  (s.map fun s => (key, Json.string s)).toList

mutual

/-- An element as a document, with its fields in order. -/
def Element.toDocument : Element → Json
  | ⟨id, kind, content, src, alt, styles, props, children, parentId⟩ =>
    .object ([("id", .string id), ("type", .string kind.name)] ++
      textMember "content" content ++ textMember "src" src ++ textMember "alt" alt ++
      [("styles", scalarsDocument styles)] ++
      (if props.isEmpty then [] else [("props", scalarsDocument props)]) ++
      [("children", .array (Forest.toDocuments children)), ("parentId", textDocument parentId)])

def Forest.toDocuments : List Element → List Json
  | [] => []
  | e :: rest => e.toDocument :: Forest.toDocuments rest

end

def Forest.toDocument (forest : Forest) : Json := .array (Forest.toDocuments forest)

def elementFields : List String :=
  ["id", "type", "content", "src", "alt", "styles", "props", "children", "parentId"]

namespace Decoder

def element : Decoder Element
  | 0, _ => none
  | limit + 1, j =>
    match slots? elementFields j with
    | some [id, kind, content, src, alt, styles, props, children, parentId] => do
      let id ← required string limit id
      let kind ← required (named ElementKind.all ElementKind.name) limit kind
      let content ← optional none (nullable string) limit content
      let src ← optional none (nullable string) limit src
      let alt ← optional none (nullable string) limit alt
      let styles ← optional .empty scalars limit styles
      let props ← optional .empty scalars limit props
      let children ← match limit, children with
        | _, none => some []
        | inner + 1, some (.array items) => items.mapM (element inner)
        | _, _ => none
      let parentId ← optional none (nullable string) limit parentId
      return ⟨id, kind, content, src, alt, styles, props, children, parentId⟩
    | _ => none

end Decoder

end Pagewright
