import BuildStep.Bind.Basic
import BuildStep.Command.Error
import BuildStep.Link.Basic
import BuildStep.Log.File
import BuildStep.Port.Basic
import BuildStep.Stream.Capture

/-!
# What commands print for people

Each function gives whole lines.  What JSON is printed instead is said where the commands are.
-/

namespace BuildStep

namespace Listing

/-- A line. -/
def line (s : String) : Text :=
  s.toList ++ ['\n']

/-- A line of a list. -/
def entry (s : String) : Text :=
  line ("  ▸ " ++ s)

/-- A heading with the number of entries below it, or a line that says there are none. -/
def list (grammar : Grammar) (entries : List String) : Text :=
  if entries.isEmpty then line s!"No {grammar.noun}s."
  else
    line s!"Parsed {entries.length} {grammar.noun}(s):" ++ (entries.map entry).flatten

/-- What an access mode is called. -/
def mode : AccessMode → String
  | .readOnly => "read-only"
  | .readWrite => "read-write"
  | .unspecified => "default"

/-- A bind mount. -/
def bind (b : Bind) : String :=
  s!"{String.ofList b.hostPath} -> {String.ofList b.containerPath} ({mode b.mode})"

/-- A port of a container and where on the host it can be reached. -/
def port (bound : ExposedPort × HostBinding) : String :=
  let address := match bound.2.hostIp with
    | some ip => String.ofList ip
    | none => "*"
  let number := if bound.2.isEphemeral then "ephemeral" else toString bound.2.hostPort.toNat
  s!"{String.ofList bound.1.render} <- {address}:{number}"

/-- A link. -/
def link (l : Link) : String :=
  s!"{String.ofList l.name} as {String.ofList l.knownAs}"

/-- The lines of some text of a stream, with the name of the stream in front of each. -/
def streamText (t : StreamText) : Text :=
  (Text.lines t.text).flatMap fun l => Text.padEnd 6 t.stream.name.toList ++ ' ' :: l ++ ['\n']

/-- How much there is of each stream. -/
def totals (m : SortedMap Text Totals) : Text :=
  if m.isEmpty then line "Stream is empty."
  else
    m.entries.flatMap fun (name, t) =>
      entry s!"{String.ofList (Text.padEnd 6 name)} {t.frames} frame(s), {t.bytes} byte(s)"

end Listing

/-- What a tailer did. -/
structure TailSummary where
  attachment : Attachment
  frames : Nat
  bytes : Nat
  reason : StopReason
  log : Text
deriving DecidableEq, Repr

/-- What a tailer did, for people. -/
def TailSummary.render (s : TailSummary) : Text :=
  Listing.line s!"Tailer {String.ofList s.attachment.render} stopped" ++
  Listing.line s!"    Reason:  {s.reason.message}" ++
  Listing.line s!"    Output:  {s.frames} frame(s), {s.bytes} byte(s)" ++
  Listing.line s!"    Log:     {String.ofList s.log}"

/-- What is known about a log. -/
structure LogReport where
  log : Text
  live : Bool
  /-- Number of bytes of the log's text. -/
  bytes : Nat
  lines : Nat
deriving DecidableEq, Repr

namespace LogReport

/-- What a reader who found `s` knows about a log. -/
def ofSnapshot (log : Text) (s : Snapshot) : LogReport :=
  ⟨log, s.live, Utf8.size s.text, (Text.lines s.text).length⟩

/-- What is known about a log, for people. -/
def render (r : LogReport) : Text :=
  let status := if r.live then "live" else "finalized"
  Listing.entry (String.ofList r.log) ++
  Listing.line s!"    Status:  {status}" ++
  Listing.line s!"    Size:    {r.bytes} byte(s), {r.lines} line(s)"

end LogReport

end BuildStep
