import BuildStep.Bind.Basic
import BuildStep.Json.Tree

/-! # Bind mounts as JSON -/

namespace BuildStep

namespace AccessMode

/-- What the mode is called where it has to be named. -/
def name : AccessMode → String
  | .readOnly => "read_only"
  | .readWrite => "read_write"
  | .unspecified => "default"

/-- The mode of the given name. -/
def ofName? (t : Text) : Option AccessMode :=
  [readOnly, readWrite, unspecified].find? fun m => m.name.toList = t

theorem ofName?_name (m : AccessMode) : ofName? m.name.toList = some m := by
  cases m <;> decide

/-- A mode is written as its name. -/
def toJson (m : AccessMode) : JsonTree := .ofText m.name.toList

/-- Reads a mode. -/
def ofJson? (j : JsonTree) : Option AccessMode := j.choice?.bind ofName?

end AccessMode

namespace Bind

/-- The fields of a bind mount, in order. -/
def fieldNames : List String := ["host_path", "container_path", "access_mode"]

/-- A bind mount is written as an object. -/
def toJson (b : Bind) : JsonTree :=
  .ofFields [("host_path", .ofText b.hostPath),
    ("container_path", .ofText b.containerPath), ("access_mode", b.mode.toJson)]

/-- Reads a bind mount. -/
def ofJson? (j : JsonTree) : Option Bind := do
  match ← j.fields? fieldNames .exact with
  | [some host, some container, some mode] =>
    return ⟨← host.text?, ← container.text?, ← AccessMode.ofJson? mode⟩
  | _ => none

end Bind

end BuildStep
