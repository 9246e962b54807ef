import BuildStep.Bind.Basic
import BuildStep.Link.Basic
import BuildStep.Port.Basic

/-!
# Host configuration

The part of a request for a new container that says how the container is tied to its host.  The
engine takes everything in it as text: bind mounts and links in the form that `Bind.render` and
`Link.render` write, ports as keys that `ExposedPort.render` writes.

* `HostConfig.ofSpecs` builds the configuration from what was read.
* `PortBindings.exposed` is the set of the ports that the container exposes.
-/

namespace BuildStep

/-- Where on the host a port can be reached, in the engine's words. -/
structure EnginePort where
  /-- The address of one interface, or all of them. -/
  hostIp : Option Text
  /-- The port as text, empty for one that the engine chooses. -/
  hostPort : Text
deriving DecidableEq, Repr

/-- A place on the host in the engine's words. -/
def EnginePort.ofHost (h : HostBinding) : EnginePort :=
  ⟨h.hostIp, if h.isEphemeral then [] else Decimal.digits h.hostPort.toNat⟩

/-- How a container is tied to its host. -/
structure HostConfig where
  binds : List Text
  portBindings : SortedMap Text (List EnginePort)
  links : List Text

namespace HostConfig

/-- The configuration without any ties. -/
def empty : HostConfig := ⟨[], .empty, []⟩

/-- The configuration has nothing in it. -/
def isEmpty (h : HostConfig) : Bool :=
  h.binds.isEmpty && h.portBindings.isEmpty && h.links.isEmpty

/-- The entry of a bound port. -/
def portEntry (entry : ExposedPort × HostBinding) : Text × List EnginePort :=
  (entry.1.render, [.ofHost entry.2])

/-- The configuration that says what some bind mounts, port bindings and links say. -/
def ofSpecs (binds : List Bind) (ports : PortBindings) (links : List Link) : HostConfig where
  binds := binds.map Bind.render
  portBindings := .ofList (ports.entries.map portEntry)
  links := links.map Link.render

end HostConfig

/-- The ports that are bound, as keys in the engine's words. -/
def PortBindings.exposed (ports : PortBindings) : SortedMap Text Unit :=
  .ofList (ports.entries.map fun entry => (entry.1.render, ()))

end BuildStep
