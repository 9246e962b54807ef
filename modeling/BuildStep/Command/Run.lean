import BuildStep.Bind.Grammar
import BuildStep.Bind.Json
import BuildStep.Command.Basic
import BuildStep.Command.Listing
import BuildStep.HostConfig.Json
import BuildStep.Link.Grammar
import BuildStep.Link.Json
import BuildStep.Port.Grammar
import BuildStep.Port.Json
import BuildStep.Stream.Json
import BuildStep.Stream.Source

/-!
# Carrying out commands

A command works in a `Session`: a directory, the standard input, the variables of the environment.
What it does is a `Report`: what it prints, whether it fails, and the directory after it.  Settings
that do not fit together are refused before any command does anything.

* `Invocation.run` carries out a command, and gives nothing if the command would never end.
-/

namespace BuildStep

/-- What surrounds a command. -/
structure Session where
  disk : Disk
  standardInput : List UInt8
  environment : Environment
  /-- The identifier of the next attachment. -/
  attachment : Attachment
  /-- The present time as a marker shows it. -/
  time : Text
  /-- How the rest of a stream is read in the end. -/
  drain : Drain
  /-- What becomes of the writes to a log. -/
  faults : List (Option FileLog.Fault)

/-- What a command did. -/
structure Report where
  output : Text
  error : Option CommandError
  disk : Disk

namespace Session

/-- Text that an argument names: the standard input for `-`, a file after `@`, else the argument
itself.  The standard input is empty once it was read. -/
def readText (s : Session) : (argument : Text) → Except CommandError (Text × Session)
  | ['-'] =>
    match Utf8.check s.standardInput with
    | some flaw => .error (.standardInput flaw)
    | none => .ok (Utf8.decode s.standardInput, { s with standardInput := [] })
  | '@' :: path =>
    match s.disk.read path with
    | .error e => .error (.configuration path e)
    | .ok bytes =>
      match Utf8.decode? bytes with
      | some t => .ok (t, s)
      | none => .error (.configuration path .notText)
  | t => .ok (t, s)

/-- Text that an argument names, or no text if there is no argument. -/
def readText? (s : Session) : (argument : Option Text) → Except CommandError (Text × Session)
  | some argument => s.readText argument
  | none => .ok ([], s)

/-- A report that changes nothing on the disk. -/
def report (s : Session) (output : Text) (error : Option CommandError) : Report :=
  ⟨output, error, s.disk⟩

/-- The report of a command that prints something or fails, and does nothing else. -/
def reportOf (s : Session) : Except CommandError Text → Report
  | .ok output => s.report output none
  | .error e => s.report [] (some e)

end Session

/-- Records as the errors of commands have them. -/
def Record.orFail {α : Type} : Except GrammarError α → Except CommandError α
  | .ok a => .ok a
  | .error e => .error (.records e)

namespace Command

/-- A value in JSON, on lines of its own. -/
def jsonLines (j : JsonTree) : Text :=
  j.pretty ++ ['\n']

/-- The records of a text, for people or as JSON. -/
def records (json : Bool) (t : Text) : Grammar → Except CommandError Text
  | .bind => do
    let binds ← Record.orFail (Bind.parseAll t)
    return if json then jsonLines (.array (binds.map Bind.toJson))
      else Listing.list .bind (binds.map Listing.bind)
  | .portBinding => do
    let ports ← Record.orFail (PortSpec.parseBindings t)
    return if json then jsonLines (.array (ports.toSpecs.map PortSpec.toJson))
      else Listing.list .portBinding (ports.entries.map Listing.port)
  | .link => do
    let links ← Record.orFail (Link.parseAll t)
    return if json then jsonLines (.array (links.map Link.toJson))
      else Listing.list .link (links.map Listing.link)

/-- Lists the records of a grammar. -/
def runParse (s : Session) (json : Bool) (grammar : Grammar) (argument : Text) : Report :=
  s.reportOf do
    let (t, _) ← s.readText argument
    records json t grammar

/-- Builds a host configuration.  Each text is read and parsed before the next. -/
def runHostConfig (s : Session) (binds ports links : Option Text) : Report :=
  s.reportOf do
    let (t, s) ← s.readText? binds
    let binds ← Record.orFail (Bind.parseAll t)
    let (t, s) ← s.readText? ports
    let ports ← Record.orFail (PortSpec.parseBindings t)
    let (t, _) ← s.readText? links
    let links ← Record.orFail (Link.parseAll t)
    return jsonLines ((HostConfig.ofSpecs binds ports links).request ports)

/-- The totals of streams as JSON. -/
def totalsToJson (m : SortedMap Text Totals) : JsonTree :=
  .object (m.toMembers fun t => .ofFields [("frames", .ofNat t.frames), ("bytes", .ofNat t.bytes)])

/-- Some text of a stream as JSON. -/
def streamTextToJson (t : StreamText) : JsonTree :=
  .ofFields [("stream", t.stream.toJson), ("text", .ofText t.text)]

/-- The text of a capture, or its totals. -/
def capture (json summary : Bool) (frames : List Frame) : Text :=
  if summary then
    if json then jsonLines (totalsToJson (Capture.totals frames))
    else Listing.totals (Capture.totals frames)
  else if json then jsonLines (.array ((Capture.transcript frames).map streamTextToJson))
  else (Capture.transcript frames).flatMap Listing.streamText

/-- Decodes a captured stream.  What comes before an error is printed all the same. -/
def runDemux (s : Session) (json : Bool) (file : Text) (summary : Bool) : Option Report :=
  match s.disk.source file with
  | .error e => some (s.report [] (some (.openCapture file e)))
  | .ok t =>
    match (Demux.new t).allFrames with
    | (frames, .error e) =>
      some (s.report (capture json summary frames) (some (.corruptCapture file e)))
    | (frames, .ended) => some (s.report (capture json summary frames) none)
    | _ => none

/-- Everything that a transport has to give, at once. -/
def arrivals (t : Transport) : List Arrival :=
  let ending := match t.ending with
    | .closed => [Reply.ended]
    | .silent => []
  (t.replies ++ ending).map fun reply => ⟨0, reply⟩

/-- The settings that a command line asks for, if they fit together. -/
def acceptSettings (c : Settings) : Except CommandError Settings :=
  match c.check with
  | none => .ok c
  | some e => .error (.pollInterval e)

/-- The settings of a tailer, with the wait between passes that the command line asks for. -/
def tailSettings (c : Settings) : (pollInterval : Option Nat) → Except CommandError Settings
  | none => .ok c
  | some n => acceptSettings (c.withTiming .pollInterval (Duration.ofMillis n))

/-- Opens the source of a tailer; `-` is the standard input. -/
def tailSource (s : Session) : (source : Text) → Except CommandError Transport
  | ['-'] => .ok (.ofBytes s.standardInput .closed)
  | path =>
    match s.disk.source path with
    | .ok t => .ok t
    | .error e => .error (.openSource path e)

/-- What a tailer did, as JSON with its names in alphabetical order. -/
def summaryToJson (s : TailSummary) : JsonTree :=
  .ofFields [("attachment", .ofText s.attachment.render), ("bytes", .ofNat s.bytes),
    ("frames", .ofNat s.frames), ("log", .ofText s.log),
    ("stop_reason", .ofText s.reason.message.toList)]

/-- The error of a command whose tailer stopped for the given reason. -/
def tailError? : StopReason → Option CommandError
  | .failed e => some (.tailing e)
  | _ => none

/-- How many rounds can make a difference to a tailer whose transport gives everything at once:
after them it stops or goes on for ever. -/
def roundsNeeded : Nat := 3

/-- Tails a stream into a log that is open. -/
def tailInto (s : Session) (json : Bool) (c : Settings) (t : Transport) (whileExists : Option Text)
    (log : DiskLog) : Option Report :=
  let running := match whileExists with
    | some path => log.disk.isThere path
    | none => true
  match (Tailer.new log (arrivals t)).run ⟨c, fun _ _ => running, none, s.drain⟩ roundsNeeded with
  | none => none
  | some (reason, w) =>
    let summary : TailSummary := ⟨s.attachment, w.frames, w.bytes, reason, log.log.path⟩
    let output := if json then (summaryToJson summary).compact ++ ['\n'] else summary.render
    some ⟨output, tailError? reason, w.log.disk⟩

/-- Opens a log and tails a stream into it. -/
def attach (s : Session) (json : Bool) (c : Settings) (t : Transport) (log : Text)
    (whileExists : Option Text) : Option Report :=
  match FileLog.openOn s.disk log s.attachment s.time c.liveMarker with
  | (.error e, disk) => some ⟨[], some (.openLog log e), disk⟩
  | (.ok fileLog, disk) => tailInto s json c t whileExists ⟨disk, fileLog, s.faults⟩

/-- Tails a stream into a log.  The log is not touched before the settings were checked and the
source was opened. -/
def runTail (s : Session) (json : Bool) (c : Settings) (source log : Text)
    (whileExists : Option Text) (pollInterval : Option Nat) : Option Report :=
  match tailSettings c pollInterval with
  | .error e => some (s.report [] (some e))
  | .ok c =>
    match tailSource s source with
    | .error e => some (s.report [] (some e))
    | .ok t => attach s json c t log whileExists

/-- What is known about a log as JSON. -/
def logReportToJson (r : LogReport) : JsonTree :=
  .ofFields [("log", .ofText r.log), ("live", .bool r.live), ("bytes", .ofNat r.bytes),
    ("lines", .ofNat r.lines)]

/-- Looks at a log. -/
def runLogStatus (s : Session) (json : Bool) (log : Text) : Report :=
  match Snapshot.read s.disk log with
  | .error e => s.report [] (some (.readLog log e))
  | .ok snapshot =>
    let r := LogReport.ofSnapshot log snapshot
    s.report (if json then jsonLines (logReportToJson r) else r.render) none

/-- Carries out a command with settings that fit together. -/
def run (s : Session) (json : Bool) (c : Settings) : Command → Option Report
  | .parse grammar text => some (runParse s json grammar text)
  | .hostConfig binds ports links => some (runHostConfig s binds ports links)
  | .demux file summary => runDemux s json file summary
  | .tail source log whileExists pollInterval =>
    runTail s json c source log whileExists pollInterval
  | .logStatus log => some (runLogStatus s json log)

end Command

/-- Carries out what a command line asks for; nothing if that would go on for ever. -/
def Invocation.run (s : Session) (i : Invocation) : Option Report :=
  let c := Settings.ofEnvironment s.environment
  match c.check with
  | some e => some (s.report [] (some (.environment e)))
  | none => i.command.run s i.json c

namespace Report

/-- What the command leaves with: zero if it succeeded. -/
def exitCode (r : Report) : Nat :=
  match r.error with
  | none => 0
  | some _ => 1

/-- What the command says about its failure. -/
def errorOutput (r : Report) : Text :=
  match r.error with
  | none => []
  | some e => e.render

end Report

/-- What a command leaves with if its arguments make no sense. -/
def Invocation.usageExitCode : Nat := 2

end BuildStep
