import BuildStep.Json.Tree
import BuildStep.Stream.Frame

/-! # Names of streams as JSON -/

namespace BuildStep.StreamType

/-- The stream of the given name. -/
def ofName? (t : Text) : Option StreamType :=
  all.find? fun s => s.name.toList = t

theorem ofName?_name (s : StreamType) : ofName? s.name.toList = some s := by
  cases s <;> decide

/-- A stream is written as its name. -/
def toJson (s : StreamType) : JsonTree := .ofText s.name.toList

/-- Reads a stream. -/
def ofJson? (j : JsonTree) : Option StreamType := j.choice?.bind ofName?

end BuildStep.StreamType
