import BuildStep.Port.Basic
import BuildStep.Record

/-! # The grammar of port bindings

A record is `[ip:][hostPort]:containerPort[/protocol]`, or the same with blanks in place of the
last colon.  The address has the form of a dotted quad, whose groups may be any one to three
digits; a host port that is left out is chosen by the engine; the protocol is `tcp` if it is left
out. -/

namespace BuildStep.PortSpec

/-- The greatest port. -/
def maxPort : Nat := 65535

/-- The address has the form of a dotted quad: four groups of one to three digits. -/
def isDottedQuad (t : Text) : Bool :=
  let groups := t.splitOn '.'
  groups.length = 4 &&
    groups.all fun g => 1 ≤ g.length && g.length ≤ 3 && g.all Char.isDigit

/-- Reads a port. -/
def readPort (field : PortField) (t : Text) : Except Fault UInt16 :=
  match Decimal.read? t with
  | none => .error (.notANumber field t)
  | some n => if n ≤ maxPort then .ok (UInt16.ofNat n) else .error (.outOfRange field t)

/-- Reads the port of the host, which may be left out. -/
def readHostPort (t : Text) : Except Fault UInt16 :=
  if t.isEmpty then .ok 0 else readPort .host t

/-- Reads the port of the container. -/
def readContainerPort (t : Text) : Except Fault UInt16 :=
  if t.isEmpty then .error (.empty .containerPort)
  else do
    let port ← readPort .container t
    if port = 0 then .error .containerPortZero else .ok port

/-- Reads the place on the host: a port that may follow an address and a colon. -/
def readHost (t : Text) : Except Fault HostBinding :=
  match Text.cutLast? (· = ':') t with
  | some (ip, port) =>
    if isDottedQuad ip then (readHostPort port).map fun p => ⟨some ip, p⟩
    else .error (.notDottedQuad ip)
  | none => (readHostPort t).map fun p => ⟨none, p⟩

/-- What a record binds to what, but for the protocol. -/
def ofParts (host container : Text) : Except Fault (HostBinding × UInt16) := do
  let port ← readContainerPort container
  let h ← readHost host
  return (h, port)

/-- Reads ports with a colon before the port of the container. -/
def readColon (head : Text) : Except Fault (HostBinding × UInt16) :=
  match Text.cutLast? (· = ':') head with
  | some (host, container) => ofParts host container
  | none => .error (.noContainerPort .colon)

/-- Reads ports with blanks before the port of the container. -/
def readBlanks (head : Text) : Except Fault (HostBinding × UInt16) :=
  match Text.cutLast? Text.isBlank (Text.trim head) with
  | some (host, container) => ofParts (Text.trimEnd host) container
  | none => .error (.noContainerPort .blanks)

/-- Reads the ports of a record, without the protocol. -/
def readHead (head : Text) : Except Fault (HostBinding × UInt16) :=
  firstReading (readColon head) (readBlanks head)

/-- Reads a protocol. -/
def readProtocol (t : Text) : Except Fault Protocol :=
  match Protocol.ofToken? t with
  | some p => .ok p
  | none => .error (.unknownProtocol t)

/-- The part of a record before its protocol, and the protocol. -/
def cutProtocol (t : Text) : Except Fault (Text × Protocol) :=
  match Text.cutLast? (· = '/') t with
  | some (head, protocol) =>
    (readProtocol (Text.trim protocol)).map fun p => (Text.trim head, p)
  | none => .ok (t, .tcp)

/-- Reads a record. -/
def read (t : Text) : Except Fault PortSpec := do
  let (head, protocol) ← cutProtocol t
  let (host, port) ← readHead head
  return ⟨host.hostIp, host.hostPort, port, protocol⟩

/-- Reads a port binding that stands alone. -/
def parse (t : Text) : Except GrammarError PortSpec :=
  Record.readSingle .portBinding read t

/-- Reads a batch of port bindings, and keeps all of them in order. -/
def parseAll (batch : Text) : Except GrammarError (List PortSpec) :=
  Record.readAll .portBinding read (Record.lines batch)

/-- Reads a batch of port bindings, and keeps the last one for each port. -/
def parseBindings (batch : Text) : Except GrammarError PortBindings :=
  (parseAll batch).map PortBindings.ofSpecs

end BuildStep.PortSpec
