import BuildStep.SortedMap
import BuildStep.Text.Decimal

/-! # Port bindings

A port binding makes a port of a container reachable under a port of the host.  What it binds is
an `ExposedPort`, and what it binds it to is a `HostBinding`; a container port has one binding for
each protocol, and the last one that was asked for counts.

* `ExposedPort` is ordered by port and then by protocol, `tcp` first.
* `PortBindings.ofSpecs` collects bindings, `PortBindings.toSpecs` lists them again. -/

namespace BuildStep

/-- The protocol that a port is for. -/
inductive Protocol
  | tcp
  | udp
deriving DecidableEq, Repr

namespace Protocol

/-- How the protocol is written. -/
def token : Protocol → Text
  | .tcp => ['t', 'c', 'p']
  | .udp => ['u', 'd', 'p']

/-- The protocol that is written as the given token. -/
def ofToken? (t : Text) : Option Protocol :=
  if t = ['t', 'c', 'p'] then some .tcp
  else if t = ['u', 'd', 'p'] then some .udp
  else none

/-- The place of the protocol among those of one port. -/
def rank : Protocol → Nat
  | .tcp => 0
  | .udp => 1

theorem ofToken?_token (p : Protocol) : ofToken? p.token = some p := by
  cases p <;> rfl

theorem rank_le_one (p : Protocol) : p.rank ≤ 1 := by
  cases p <;> decide

theorem rank_injective {p q : Protocol} (h : p.rank = q.rank) : p = q := by
  cases p <;> cases q <;> simp_all [rank]

end Protocol

/-- A port of a container. -/
structure ExposedPort where
  port : UInt16
  protocol : Protocol
deriving DecidableEq, Repr

namespace ExposedPort

/-- The form that an engine reads: `8080/tcp`. -/
def render (e : ExposedPort) : Text :=
  Decimal.digits e.port.toNat ++ '/' :: e.protocol.token

/-- The place of the port among all ports. -/
def rank (e : ExposedPort) : Nat :=
  2 * e.port.toNat + e.protocol.rank

/-- Different ports have different places, for the protocols of one port fill the two places that
the port has. -/
theorem rank_injective {a b : ExposedPort} (h : a.rank = b.rank) : a = b := by
  obtain ⟨p, x⟩ := a
  obtain ⟨q, y⟩ := b
  have hx := x.rank_le_one
  have hy := y.rank_le_one
  simp only [rank] at h
  have hport : p = q := UInt16.toNat.inj (by omega)
  have hprotocol : x = y := Protocol.rank_injective (by omega)
  rw [hport, hprotocol]

instance : Ord ExposedPort := ⟨compareOn rank⟩

instance : Std.TransOrd ExposedPort :=
  inferInstanceAs (Std.TransCmp (compareOn rank))

instance : Std.LawfulEqOrd ExposedPort where
  compare_self := Nat.compare_eq_eq.2 rfl
  eq_of_compare h := rank_injective (Nat.compare_eq_eq.1 h)

end ExposedPort

/-- Where on the host a port of a container can be reached. -/
structure HostBinding where
  /-- The address of one interface, or all of them. -/
  hostIp : Option Text
  /-- The port, or zero for one that the engine chooses. -/
  hostPort : UInt16
deriving DecidableEq, Repr

/-- The engine chooses the port. -/
def HostBinding.isEphemeral (h : HostBinding) : Bool :=
  h.hostPort = 0

/-- A binding of one port. -/
structure PortSpec where
  hostIp : Option Text
  hostPort : UInt16
  containerPort : UInt16
  protocol : Protocol
deriving DecidableEq, Repr

namespace PortSpec

/-- What is bound. -/
def exposed (s : PortSpec) : ExposedPort := ⟨s.containerPort, s.protocol⟩

/-- What it is bound to. -/
def host (s : PortSpec) : HostBinding := ⟨s.hostIp, s.hostPort⟩

/-- The binding of a port to a place on the host. -/
def ofEntry (entry : ExposedPort × HostBinding) : PortSpec :=
  ⟨entry.2.hostIp, entry.2.hostPort, entry.1.port, entry.1.protocol⟩

/-- The form that an engine reads: `[ip:]hostPort:containerPort/protocol`, without a host port that
the engine chooses. -/
def render (s : PortSpec) : Text :=
  (match s.hostIp with
    | some ip => ip ++ [':']
    | none => []) ++
  (if s.hostPort = 0 then [] else Decimal.digits s.hostPort.toNat) ++
  ':' :: s.exposed.render

end PortSpec

/-- The bindings of a container, by port. -/
abbrev PortBindings := SortedMap ExposedPort HostBinding

namespace PortBindings

/-- Adds a binding in place of an earlier one for the same port. -/
def insertSpec (m : PortBindings) (s : PortSpec) : PortBindings :=
  m.insert s.exposed s.host

/-- Adds a binding, and gives back the one whose place it takes. -/
def exchangeSpec (m : PortBindings) (s : PortSpec) : Option HostBinding × PortBindings :=
  m.exchange s.exposed s.host

/-- The bindings that result from adding some one after the other. -/
def ofSpecs (specs : List PortSpec) : PortBindings :=
  specs.foldl insertSpec SortedMap.empty

/-- All bindings in order. -/
def toSpecs (m : PortBindings) : List PortSpec :=
  m.entries.map PortSpec.ofEntry

end PortBindings

end BuildStep
