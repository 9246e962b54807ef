import BuildStep.Json.Tree
import BuildStep.Port.Basic

/-! # Port bindings as JSON -/

namespace BuildStep

namespace Protocol

/-- A protocol is written as its token. -/
def toJson (p : Protocol) : JsonTree := .ofText p.token

/-- Reads a protocol. -/
def ofJson? (j : JsonTree) : Option Protocol := j.choice?.bind ofToken?

end Protocol

namespace HostBinding

/-- The fields of a place on the host, in order. -/
def fieldNames : List String := ["host_ip", "host_port"]

/-- A place on the host is written as an object, with `null` for all addresses. -/
def toJson (h : HostBinding) : JsonTree :=
  .ofFields [("host_ip", .ofText? h.hostIp), ("host_port", .ofNat h.hostPort.toNat)]

/-- Reads a place on the host. -/
def ofJson? (j : JsonTree) : Option HostBinding := do
  match ← j.fields? fieldNames .exact with
  | [ip, some port] => return ⟨← JsonTree.optionalText? ip, ← port.port?⟩
  | _ => none

end HostBinding

namespace PortSpec

/-- The fields of a port binding, in order. -/
def fieldNames : List String := ["host_ip", "host_port", "container_port", "protocol"]

/-- A port binding is written as an object, with `null` for all addresses. -/
def toJson (s : PortSpec) : JsonTree :=
  .ofFields [("host_ip", .ofText? s.hostIp), ("host_port", .ofNat s.hostPort.toNat),
    ("container_port", .ofNat s.containerPort.toNat), ("protocol", s.protocol.toJson)]

/-- Reads a port binding. -/
def ofJson? (j : JsonTree) : Option PortSpec := do
  match ← j.fields? fieldNames .exact with
  | [ip, some hostPort, some containerPort, some protocol] =>
    return ⟨← JsonTree.optionalText? ip, ← hostPort.port?, ← containerPort.port?,
      ← Protocol.ofJson? protocol⟩
  | _ => none

end PortSpec

end BuildStep
