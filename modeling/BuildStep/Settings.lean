import BuildStep.Duration
import BuildStep.Text.Decimal
import BuildStep.Text.Utf8

/-! # Settings of a tailer

How long a tailer waits, and whether its log is marked as live.  Every setting has a default and
may come from a variable of the environment; a variable that cannot be read as a setting leaves the
default in place.

* `Settings.ofEnvironment` reads the variables, `Settings.check` refuses timings that do not fit
  together.
* `Settings.check_eq_none_iff`: exactly the timings with `0 < drainIdle < pollInterval` and
  `0 < releaseTimeout` pass. -/

namespace BuildStep

/-- The variables of an environment; values are bytes. -/
abbrev Environment := List (String × List UInt8)

namespace Environment

/-- The value of a variable that is set to a text. -/
def text? (env : Environment) (name : String) : Option Text :=
  (env.lookup name).bind Utf8.decode?

end Environment

/-- What a tailer goes by. -/
structure Settings where
  /-- The wait between two passes, and the longest a pass may take. -/
  pollInterval : Nat
  /-- A pass ends when no frame came for this long. -/
  drainIdle : Nat
  /-- The longest that reading the rest of the transport may take in the end. -/
  releaseTimeout : Nat
  /-- A file beside the log says that the log is live. -/
  liveMarker : Bool
deriving DecidableEq, Repr

/-- One of the timings. -/
inductive Timing
  | pollInterval
  | drainIdle
  | releaseTimeout
deriving DecidableEq, Repr

namespace Timing

/-- The name that people set the timing by. -/
def name : Timing → String
  | .pollInterval => "poll_interval"
  | .drainIdle => "drain_idle"
  | .releaseTimeout => "release_timeout"

/-- The variable that sets the timing, in milliseconds. -/
def variableName : Timing → String
  | .pollInterval => "BERTH_POLL_INTERVAL_MS"
  | .drainIdle => "BERTH_DRAIN_IDLE_MS"
  | .releaseTimeout => "BERTH_RELEASE_TIMEOUT_MS"

end Timing

/-- Why settings are refused. -/
inductive SettingsError
  /-- A timing is zero. -/
  | zero (timing : Timing)
  /-- A pass would always take as long as it may. -/
  | idleTooLong (drainIdle pollInterval : Nat)
deriving DecidableEq, Repr

namespace SettingsError

/-- The wording of the error. -/
def message : SettingsError → String
  | .zero timing => s!"{timing.name} must be greater than 0"
  | .idleTooLong idle poll =>
    s!"drain_idle ({Duration.millis idle} ms) must be shorter than poll_interval " ++
      s!"({Duration.millis poll} ms)"

end SettingsError

namespace Settings

/-- The settings of a tailer that nobody set anything for. -/
def default : Settings :=
  ⟨Duration.ofMillis 2000, Duration.ofMillis 100, Duration.ofMillis 5000, true⟩

/-- The value of a timing. -/
def timing (c : Settings) : Timing → Nat
  | .pollInterval => c.pollInterval
  | .drainIdle => c.drainIdle
  | .releaseTimeout => c.releaseTimeout

/-- The settings with another value for a timing. -/
def withTiming (c : Settings) (t : Timing) (value : Nat) : Settings :=
  match t with
  | .pollInterval => { c with pollInterval := value }
  | .drainIdle => { c with drainIdle := value }
  | .releaseTimeout => { c with releaseTimeout := value }

/-- The variable that turns the live marker off. -/
def markerVariable : String := "BERTH_LIVE_MARKER"

/-- The text turns a setting off. -/
def turnsOff (t : Text) : Bool :=
  [['0'], ['f', 'a', 'l', 's', 'e'], ['n', 'o']].contains (Text.toLowerAscii (Text.trim t))

/-- A timing as an environment has it. -/
def timingIn (env : Environment) (t : Timing) : Nat :=
  match (env.text? t.variableName).bind Decimal.read64? with
  | some n => Duration.ofMillis n
  | none => default.timing t

/-- The settings that an environment asks for. -/
def ofEnvironment (env : Environment) : Settings where
  pollInterval := timingIn env .pollInterval
  drainIdle := timingIn env .drainIdle
  releaseTimeout := timingIn env .releaseTimeout
  liveMarker :=
    match env.text? markerVariable with
    | some t => !turnsOff t
    | none => default.liveMarker

/-- The first reason to refuse the settings. -/
def check (c : Settings) : Option SettingsError :=
  if c.pollInterval = 0 then some (.zero .pollInterval)
  else if c.drainIdle = 0 then some (.zero .drainIdle)
  else if c.releaseTimeout = 0 then some (.zero .releaseTimeout)
  else if c.pollInterval ≤ c.drainIdle then some (.idleTooLong c.drainIdle c.pollInterval)
  else none

theorem check_eq_none_iff (c : Settings) :
    c.check = none ↔ 0 < c.drainIdle ∧ c.drainIdle < c.pollInterval ∧ 0 < c.releaseTimeout := by
  simp only [check]
  split
  · simp only [reduceCtorEq, false_iff]; omega
  split
  · simp only [reduceCtorEq, false_iff]; omega
  split
  · simp only [reduceCtorEq, false_iff]; omega
  split
  · simp only [reduceCtorEq, false_iff]; omega
  · simp only [true_iff]; omega

theorem pollInterval_pos {c : Settings} (h : c.check = none) : 0 < c.pollInterval := by
  obtain ⟨-, hshort, -⟩ := c.check_eq_none_iff.mp h
  omega

end Settings

end BuildStep
