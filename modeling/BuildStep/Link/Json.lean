import BuildStep.Link.Basic
import BuildStep.Json.Tree

/-! # Links as JSON -/

namespace BuildStep.Link

/-- The fields of a link, in order. -/
def fieldNames : List String := ["name", "alias"]

/-- A link is written as an object. -/
def toJson (l : Link) : JsonTree :=
  .ofFields [("name", .ofText l.name), ("alias", .ofText l.knownAs)]

/-- Reads a link. -/
def ofJson? (j : JsonTree) : Option Link := do
  match ← j.fields? fieldNames .exact with
  | [some name, some knownAs] => return ⟨← name.text?, ← knownAs.text?⟩
  | _ => none

end BuildStep.Link
