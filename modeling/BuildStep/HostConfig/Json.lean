import BuildStep.HostConfig.Basic
import BuildStep.Json.Tree

/-!
# Host configuration as JSON

Members that would be empty are left out, and members that are absent are read as empty.

* `HostConfig.toJson` and `HostConfig.ofJson?` write and read the configuration by itself.
* `HostConfig.request` is the part of a request that holds the configuration and the exposed ports.
-/

namespace BuildStep

/-- A value under each of some keys, as the members of an object. -/
def SortedMap.toMembers {ν : Type} (f : ν → JsonTree) (m : SortedMap Text ν) :
    List (Text × JsonTree) :=
  m.entries.map fun entry => (JsonLiteral.escape entry.1, f entry.2)

/-- A field, or none where its value is to be left out. -/
def JsonTree.fieldUnless (leftOut : Bool) (name : String) (value : JsonTree) :
    List (String × JsonTree) :=
  if leftOut then [] else [(name, value)]

namespace EnginePort

/-- The fields of a place on the host, in order. -/
def fieldNames : List String := ["HostIp", "HostPort"]

/-- A place on the host is written as an object, without an address if it stands for all. -/
def toJson (p : EnginePort) : JsonTree :=
  .ofFields <|
    (match p.hostIp with
      | some ip => [("HostIp", .ofText ip)]
      | none => []) ++
    [("HostPort", .ofText p.hostPort)]

/-- Reads a place on the host. -/
def ofJson? (j : JsonTree) : Option EnginePort := do
  match ← j.fields? fieldNames .exact with
  | [ip, some port] => return ⟨← JsonTree.optionalText? ip, ← port.text?⟩
  | _ => none

end EnginePort

namespace HostConfig

/-- The bind mounts, unless there are none. -/
def bindsField (h : HostConfig) : List (String × JsonTree) :=
  JsonTree.fieldUnless h.binds.isEmpty "Binds" (.ofTexts h.binds)

/-- The port bindings, unless there are none. -/
def portsField (h : HostConfig) : List (String × JsonTree) :=
  JsonTree.fieldUnless h.portBindings.isEmpty "PortBindings" <|
    .object (h.portBindings.toMembers fun ports => .array (ports.map EnginePort.toJson))

/-- The links, unless there are none. -/
def linksField (h : HostConfig) : List (String × JsonTree) :=
  JsonTree.fieldUnless h.links.isEmpty "Links" (.ofTexts h.links)

/-- The configuration is written as an object. -/
def toJson (h : HostConfig) : JsonTree :=
  .ofFields (h.bindsField ++ h.portsField ++ h.linksField)

/-- The fields of the configuration, in order. -/
def fieldNames : List String := ["Binds", "PortBindings", "Links"]

/-- Reads port bindings; the last member of a name counts. -/
def portsOfJson? : JsonTree → Option (SortedMap Text (List EnginePort))
  | .object members => do
    let members ← JsonTree.named? members
    let entries ← members.mapM fun m => do
      return (m.1, ← (← m.2.elements?).mapM EnginePort.ofJson?)
    return .ofList entries
  | _ => none

/-- Reads a field, with another value if it is absent. -/
def readOr {α : Type} (absent : α) (f : JsonTree → Option α) : Option JsonTree → Option α
  | some j => f j
  | none => some absent

/-- Reads a configuration. -/
def ofJson? (j : JsonTree) : Option HostConfig := do
  match ← j.fields? fieldNames .upTo with
  | [binds, ports, links] =>
    return ⟨← readOr [] JsonTree.texts? binds, ← readOr .empty portsOfJson? ports,
      ← readOr [] JsonTree.texts? links⟩
  | _ => none

/-- The exposed ports are written as an object with an empty object under each of them. -/
def exposedToJson (ports : PortBindings) : JsonTree :=
  .object (ports.exposed.toMembers fun _ => .object [])

/-- The part of a request that the configuration and the exposed ports make up, with all names in
alphabetical order. -/
def request (h : HostConfig) (ports : PortBindings) : JsonTree :=
  .ofFields [("ExposedPorts", exposedToJson ports),
    ("HostConfig", .ofFields (h.bindsField ++ h.linksField ++ h.portsField))]

end HostConfig

end BuildStep
