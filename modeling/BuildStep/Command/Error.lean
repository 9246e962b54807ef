import BuildStep.IoError
import BuildStep.Record
import BuildStep.Settings
import BuildStep.Tail.Tailer

/-!
# Why a command fails

An error is reported with what the command was about to do, and below it what kept it from doing
it.  If the reason has a reason of its own, both are numbered.
-/

namespace BuildStep

/-- The wording of a flaw in bytes that should be UTF-8. -/
def Utf8.Flaw.message (f : Utf8.Flaw) : String :=
  match f.length with
  | some n => s!"invalid utf-8 sequence of {n} bytes from index {f.offset}"
  | none => s!"incomplete utf-8 byte sequence from index {f.offset}"

/-- What the records of a grammar list. -/
def Grammar.noun : Grammar → String
  | .bind => "bind mount"
  | .portBinding => "port binding"
  | .link => "link"

/-- Why a command failed. -/
inductive CommandError
  /-- The environment asks for settings that do not fit together. -/
  | environment (e : SettingsError)
  /-- The command line asks for a wait that does not fit the other settings. -/
  | pollInterval (e : SettingsError)
  /-- The standard input is no text. -/
  | standardInput (flaw : Utf8.Flaw)
  /-- A file with configuration cannot be read. -/
  | configuration (path : Text) (e : IoError)
  /-- Configuration is not what the grammar asks for. -/
  | records (e : GrammarError)
  | openCapture (path : Text) (e : IoError)
  /-- A capture does not end as a stream should. -/
  | corruptCapture (path : Text) (e : DemuxError)
  | openSource (path : Text) (e : IoError)
  | openLog (path : Text) (e : IoError)
  | readLog (path : Text) (e : IoError)
  /-- A tailer stopped because it could not go on. -/
  | tailing (e : TailError)
deriving DecidableEq, Repr

namespace CommandError

/-- What the command was about to do. -/
def context : CommandError → String
  | .environment _ => "Invalid tailer configuration in environment"
  | .pollInterval _ => "Invalid --poll-interval-ms"
  | .standardInput _ => "Failed to read configuration from stdin"
  | .configuration path _ => s!"Failed to read configuration file: {String.ofList path}"
  | .records e => s!"Failed to parse {e.grammar.noun}s"
  | .openCapture path _ => s!"Failed to open stream capture: {String.ofList path}"
  | .corruptCapture path _ => s!"Stream capture {String.ofList path} is corrupt"
  | .openSource path _ => s!"Failed to open stream source: {String.ofList path}"
  | .openLog path _ => s!"Failed to open log: {String.ofList path}"
  | .readLog path _ => s!"Failed to read log: {String.ofList path}"
  | .tailing e => s!"Tailing stopped early: {e.message}"

/-- What kept the command from doing it, and what was behind that. -/
def causes : CommandError → List String
  | .environment e => [e.message]
  | .pollInterval e => [e.message]
  | .standardInput flaw => [flaw.message]
  | .configuration _ e => [e.message]
  | .records e => [e.message]
  | .openCapture _ e => [e.message]
  | .corruptCapture _ (.transport e) => [DemuxError.message (.transport e), e.message]
  | .corruptCapture _ e => [e.message]
  | .openSource _ e => [e.message]
  | .openLog _ e => [e.message]
  | .readLog _ e => [e.message]
  | .tailing _ => []

/-- A text with more space at the start of each line but the first. -/
def hang (space : String) (t : Text) : Text :=
  t.flatMap fun c => if c = '\n' then '\n' :: space.toList else [c]

/-- A cause that is the only one. -/
def onlyCause (cause : String) : Text :=
  '\n' :: "    ".toList ++ hang "    " cause.toList

/-- A cause with its number. -/
def numberedCause (n : Nat) (cause : String) : Text :=
  '\n' :: Text.padStart 5 (Decimal.digits n) ++ [':', ' '] ++ hang "       " cause.toList

/-- The causes under their heading. -/
def renderCauses : List String → Text
  | [] => []
  | [cause] => "\n\nCaused by:".toList ++ onlyCause cause
  | causes =>
    "\n\nCaused by:".toList ++ (causes.zipIdx.map fun (cause, n) => numberedCause n cause).flatten

/-- The report of the error. -/
def render (e : CommandError) : Text :=
  "Error: ".toList ++ e.context.toList ++ renderCauses e.causes ++ ['\n']

end CommandError

end BuildStep
