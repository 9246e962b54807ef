import BuildStep.Stream.Frame
import BuildStep.Text.Utf8

/-! # From payloads to text

Payloads are cut without regard to characters.  A `TextDecoder` therefore holds back, for each
stream, the bytes at the end of what it got that may be the beginning of a character, and reads
them together with the next payload of that stream.

* `heldBack` looks at no more than three bytes, since a longer tail is no beginning.
* `TextDecoder.decode` holds back what `completeLength` leaves of the bytes at hand. -/

namespace BuildStep

/-- The bytes of each stream that wait for the rest of their character. -/
structure TextDecoder where
  stdin : List UInt8
  stdout : List UInt8
  stderr : List UInt8
deriving DecidableEq, Repr

namespace TextDecoder

/-- A decoder that has seen nothing yet. -/
def new : TextDecoder := ⟨[], [], []⟩

/-- The bytes that wait on a stream. -/
def held (d : TextDecoder) : StreamType → List UInt8
  | .stdin => d.stdin
  | .stdout => d.stdout
  | .stderr => d.stderr

/-- The decoder with other bytes waiting on a stream. -/
def hold (d : TextDecoder) (s : StreamType) (bytes : List UInt8) : TextDecoder :=
  match s with
  | .stdin => { d with stdin := bytes }
  | .stdout => { d with stdout := bytes }
  | .stderr => { d with stderr := bytes }

@[simp] theorem held_hold_self (d : TextDecoder) (s : StreamType) (bytes : List UInt8) :
    (d.hold s bytes).held s = bytes := by
  cases s <;> rfl

theorem held_hold_of_ne (d : TextDecoder) {s s' : StreamType} (h : s' ≠ s)
    (bytes : List UInt8) : (d.hold s bytes).held s' = d.held s' := by
  cases s <;> cases s' <;> simp_all [hold, held]

/-- Length of the unfinished character that ends some bytes, which are given last to first and
follow `tails` continuation bytes: those, and the byte that starts a character of more bytes. -/
def heldBackFrom (tails : Nat) : List UInt8 → Nat
  | [] => 0
  | b :: rest =>
    if Utf8.isContinuation b then heldBackFrom (tails + 1) rest
    else
      match Utf8.width? b with
      | some width => if tails + 1 < width then tails + 1 else 0
      | none => 0

/-- Length of the unfinished character at the end of some bytes.  An unfinished character has three
bytes at most, so only the last three are looked at. -/
def heldBack (bytes : List UInt8) : Nat :=
  heldBackFrom 0 (bytes.reverse.take 3)

/-- Number of bytes before the unfinished character at the end of some bytes. -/
def completeLength (bytes : List UInt8) : Nat :=
  bytes.length - heldBack bytes

/-- The text that a payload completes, and the decoder after it. -/
def decode (d : TextDecoder) (s : StreamType) (payload : List UInt8) : Text × TextDecoder :=
  let bytes := d.held s ++ payload
  let n := completeLength bytes
  (Utf8.decode (bytes.take n), d.hold s (bytes.drop n))

/-- The text of the bytes that still wait on a stream, and the decoder without them. -/
def finish (d : TextDecoder) (s : StreamType) : Text × TextDecoder :=
  (Utf8.decode (d.held s), d.hold s [])

end TextDecoder

end BuildStep
