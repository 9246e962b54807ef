import BuildStep.Proofs.Record.LinkGrammar
import BuildStep.Proofs.Record.BindGrammar
import BuildStep.Proofs.Record.PortGrammar

/-!
# Records that are read the other way round

A record is read with colons between its fields, and if that fails with blanks between them.  The
two readings never both succeed, so the order of the readings decides only which fault is reported,
and never what a record says.

## Key results

- `PortSpec.readWith_eq_ok_iff_of_forall`: all that matters of a record of ports is how its head is
  read
- `read_eq_ok_iff_of_blanksFirst`: what is accepted, and as what, if blanks are tried first
-/

namespace BuildStep

namespace Bind

/-- Reads a record with blanks between its fields, and with colons if that fails. -/
def readBlanksFirst (t : Text) : Except Fault Bind :=
  firstReading (readBlanks t) (readColons t)

end Bind

namespace Link

/-- Reads a record with blanks between its fields, and with a colon if that fails. -/
def readBlanksFirst (t : Text) : Except Fault Link :=
  firstReading (readBlanks t) (readColons t)

end Link

namespace PortSpec

open Record (bind_eq_ok_iff)

/-- Reads a record whose ports are read in the given way. -/
def readWith (readPorts : Text → Except Fault (HostBinding × UInt16)) (t : Text) :
    Except Fault PortSpec := do
  let (head, protocol) ← cutProtocol t
  let (host, port) ← readPorts head
  return ⟨host.hostIp, host.hostPort, port, protocol⟩

/-- A record is read with the ports that `readHead` reads. -/
theorem read_eq_readWith (t : Text) : read t = readWith readHead t := rfl

/-- All that matters for what a record says is which ports are read. -/
theorem readWith_eq_ok_iff_of_forall {f g : Text → Except Fault (HostBinding × UInt16)}
    (h : ∀ head r, f head = .ok r ↔ g head = .ok r) (t : Text) (s : PortSpec) :
    readWith f t = .ok s ↔ readWith g t = .ok s := by
  simp only [readWith, bind_eq_ok_iff, h]

/-- Reads a record with blanks before the port of the container, and with a colon if that fails. -/
def readBlanksFirst (t : Text) : Except Fault PortSpec :=
  readWith (fun head => firstReading (readBlanks head) (readColon head)) t

end PortSpec

/-- At most one of `readColons` and `readBlanks` accepts a text, so `readBlanksFirst` reads what
`read` does. -/
theorem read_eq_ok_iff_of_blanksFirst (t : Text) :
    Exclusive (Bind.readColons t) (Bind.readBlanks t) ∧
    Exclusive (Link.readColons t) (Link.readBlanks t) ∧
    (∀ head, Exclusive (PortSpec.readColon head) (PortSpec.readBlanks head)) ∧
    (∀ b, Bind.readBlanksFirst t = .ok b ↔ Bind.read t = .ok b) ∧
    (∀ l, Link.readBlanksFirst t = .ok l ↔ Link.read t = .ok l) ∧
    (∀ s, PortSpec.readBlanksFirst t = .ok s ↔ PortSpec.read t = .ok s) := by
  refine ⟨Bind.exclusive_readings t, Link.exclusive_readings t, PortSpec.exclusive_readings, ?_, ?_,
    ?_⟩
  · exact (Bind.exclusive_readings t).firstReading_comm
  · exact (Link.exclusive_readings t).firstReading_comm
  · intro s
    rw [PortSpec.read_eq_readWith]
    refine PortSpec.readWith_eq_ok_iff_of_forall (fun head r => ?_) t s
    exact (PortSpec.exclusive_readings head).firstReading_comm r

/-- The order does decide which fault is reported: here only the colons show the fields. -/
example : Bind.read "a::b c".toList = .error (.empty .containerPath) ∧
    Bind.readBlanksFirst "a::b c".toList = .error (.colonInPath "a::b".toList) := by
  exact ⟨rfl, rfl⟩

end BuildStep
