import BuildStep.Command.Run
import BuildStep.Proofs.Text.Strict

/-!
# Which tailers are let at a log

A tailer does not look at its own settings: with a pass that may last as long as the wait between two
of them, or with no time to let go of its transport, it would still be started.  That such a tailer is
never started is up to the command, which asks twice: once about the settings of the environment, and
once more if the command line has another wait.

Here everything that may be given to a command is followed up to the place where the log is opened.
Whoever does not come so far leaves the disk as it was.

## Key results

- `Settings.check_eq_none_iff_fits`: which settings pass, compared to the nanosecond
- `Settings.isSetIn_timingIn`: what an environment makes of a timing
- `Command.isGivenBy_of_arguments`: what a command line makes of the wait
- `Invocation.run_tail`: who comes as far as the log, and with which settings
-/

namespace BuildStep

/-! ## Settings that fit together -/

/-- The variable is set to the numeral of a 64-bit number. -/
def Environment.Sets (env : Environment) (name : String) (n : Nat) : Prop :=
  ∃ t, env.lookup name = some (Utf8.encode t) ∧ Decimal.Gives64 t n

/-- A variable sets a number exactly if it is read as that number. -/
theorem Environment.sets_iff {env : Environment} {name : String} {n : Nat} :
    env.Sets name n ↔ (env.text? name).bind Decimal.read64? = some n := by
  simp only [Sets, text?, Option.bind_eq_some_iff,
    Utf8.decode?_eq_some_iff, Decimal.read64?_eq_some_iff]
  constructor
  · rintro ⟨t, hlookup, hgives⟩
    exact ⟨t, ⟨_, hlookup, rfl⟩, hgives⟩
  · rintro ⟨t, ⟨bytes, hlookup, rfl⟩, hgives⟩
    exact ⟨t, hlookup, hgives⟩

namespace Settings

variable {c : Settings} {env : Environment}

/-- A tailer can work with these timings. -/
structure Fits (c : Settings) : Prop where
  idle_pos : 0 < c.drainIdle
  idle_lt : c.drainIdle < c.pollInterval
  release_pos : 0 < c.releaseTimeout

/-- The length of time is the one that the variable asks for, in milliseconds, or the default if the
variable is not set to a number. -/
def IsSetIn (env : Environment) (t : Timing) (value : Nat) : Prop :=
  (∃ n, env.Sets t.variableName n ∧ value = Duration.ofMillis n) ∨
    (∀ n, ¬env.Sets t.variableName n) ∧ value = default.timing t

/-- The settings with the wait that a command line asks for, if it asks for one. -/
def asked (c : Settings) : (pollInterval : Option Nat) → Settings
  | none => c
  | some n => c.withTiming .pollInterval (Duration.ofMillis n)

theorem check_eq_none_iff_fits (c : Settings) : c.check = none ↔ c.Fits := by
  rw [check_eq_none_iff]
  constructor
  · rintro ⟨hidle, hshort, hrelease⟩
    exact ⟨hidle, hshort, hrelease⟩
  · rintro ⟨hidle, hshort, hrelease⟩
    exact ⟨hidle, hshort, hrelease⟩

/-- A nanosecond is enough of a difference, though both are shown as one millisecond. -/
example : check ⟨1000001, 1000000, 1, true⟩ = none ∧
    check ⟨1000000, 1000000, 1, true⟩ = some (.idleTooLong 1000000 1000000) := by decide

theorem exists_error_of_not_fits (h : ¬c.Fits) : ∃ e, c.check = some e := by
  rw [← check_eq_none_iff_fits] at h
  exact Option.ne_none_iff_exists'.mp h

theorem isSetIn_timingIn (env : Environment) (t : Timing) : IsSetIn env t (timingIn env t) := by
  unfold timingIn
  cases hread : (env.text? t.variableName).bind Decimal.read64? with
  | some n => exact .inl ⟨n, Environment.sets_iff.mpr hread, rfl⟩
  | none =>
    refine .inr ⟨fun n hsets => ?_, rfl⟩
    rw [Environment.sets_iff, hread] at hsets
    cases hsets

/-- Every timing of an environment is the one that its variable asks for. -/
theorem isSetIn_ofEnvironment (env : Environment) (t : Timing) :
    IsSetIn env t ((ofEnvironment env).timing t) := by
  have hset := isSetIn_timingIn env t
  cases t <;> exact hset

end Settings

/-! ## Up to the log -/

namespace Command

variable {c : Settings} {pollInterval : Option Nat}

/-- The wait is the 64-bit number that an option gives, or there is neither a wait nor an option. -/
def IsGivenBy (pollInterval : Option Nat) : (value : Option Text) → Prop
  | none => pollInterval = none
  | some t => ∃ n, pollInterval = some n ∧ Decimal.Gives64 t n

/-- What a command line makes of the wait. -/
theorem isGivenBy_of_arguments {env : Environment} {a : Arguments} {source log : Text}
    {whileExists : Option Text}
    (h : ofArguments? env a .tail = some (.tail source log whileExists pollInterval)) :
    IsGivenBy pollInterval (a.value? .pollInterval) := by
  simp only [ofArguments?, Option.bind_eq_bind, Option.bind_eq_some_iff] at h
  obtain ⟨_, -, _, -, _, -, _, -, p, hp, h⟩ := h
  cases h
  cases hvalue : a.value? .pollInterval with
  | none =>
    rw [hvalue] at hp
    cases hp
    rfl
  | some t =>
    rw [hvalue, optional?, Option.map_eq_some_iff] at hp
    obtain ⟨n, hread, rfl⟩ := hp
    exact ⟨n, rfl, Decimal.read64?_eq_some_iff.mp hread⟩

theorem acceptSettings_of_fits (h : c.Fits) : acceptSettings c = .ok c := by
  rw [acceptSettings, (Settings.check_eq_none_iff_fits c).mpr h]

theorem acceptSettings_of_not_fits (h : ¬c.Fits) :
    ∃ e, acceptSettings c = .error (.pollInterval e) := by
  obtain ⟨e, hcheck⟩ := Settings.exists_error_of_not_fits h
  refine ⟨e, ?_⟩
  rw [acceptSettings, hcheck]

/-- Without a wait of its own, a command line asks for settings that were checked before. -/
theorem tailSettings_of_fits (h : (c.asked pollInterval).Fits) :
    tailSettings c pollInterval = .ok (c.asked pollInterval) := by
  cases pollInterval with
  | none => rfl
  | some n => exact acceptSettings_of_fits h

theorem tailSettings_of_not_fits (hc : c.Fits) (h : ¬(c.asked pollInterval).Fits) :
    ∃ e, tailSettings c pollInterval = .error (.pollInterval e) := by
  cases pollInterval with
  | none => exact absurd hc h
  | some n => exact acceptSettings_of_not_fits h

variable {s : Session} {json : Bool} {source log : Text} {whileExists : Option Text}

/-- Who has settings that fit and a source to read comes as far as the log. -/
theorem runTail_of_fits {t : Transport} (h : (c.asked pollInterval).Fits)
    (hsource : tailSource s source = .ok t) :
    runTail s json c source log whileExists pollInterval =
      attach s json (c.asked pollInterval) t log whileExists := by
  rw [runTail, tailSettings_of_fits h]
  simp only [hsource]

theorem runTail_of_not_fits (hc : c.Fits) (h : ¬(c.asked pollInterval).Fits) :
    ∃ e, runTail s json c source log whileExists pollInterval =
      some ⟨[], some (.pollInterval e), s.disk⟩ := by
  obtain ⟨e, hsettings⟩ := tailSettings_of_not_fits hc h
  refine ⟨e, ?_⟩
  rw [runTail, hsettings]
  rfl

theorem runTail_of_no_source {e : CommandError} (h : (c.asked pollInterval).Fits)
    (hsource : tailSource s source = .error e) :
    runTail s json c source log whileExists pollInterval = some ⟨[], some e, s.disk⟩ := by
  rw [runTail, tailSettings_of_fits h]
  simp only [hsource]
  rfl

end Command

namespace Invocation

open Command (attach tailSource runTail_of_fits runTail_of_not_fits runTail_of_no_source)

variable {s : Session} {i : Invocation}

theorem run_of_fits (h : (Settings.ofEnvironment s.environment).Fits) :
    i.run s = i.command.run s i.json (Settings.ofEnvironment s.environment) := by
  simp only [run, (Settings.check_eq_none_iff_fits _).mpr h]

/-- The environment is looked at before anything else. -/
theorem run_of_not_fits (h : ¬(Settings.ofEnvironment s.environment).Fits) :
    ∃ e, i.run s = some ⟨[], some (.environment e), s.disk⟩ := by
  obtain ⟨e, hcheck⟩ := Settings.exists_error_of_not_fits h
  refine ⟨e, ?_⟩
  simp only [run, hcheck]
  rfl

/-- `run` opens the log of a `tail` command just if the settings of `Settings.ofEnvironment` and
those of `Settings.asked` both satisfy `Settings.Fits` and `tailSource` can be opened.  Otherwise it
gives the first of these errors and leaves the disk as it was. -/
theorem run_tail (s : Session) (json : Bool) (source log : Text) (whileExists : Option Text)
    (pollInterval : Option Nat) :
    let c := Settings.ofEnvironment s.environment
    let asked := c.asked pollInterval
    let outcome := run s ⟨json, .tail source log whileExists pollInterval⟩
    (∀ t, Settings.IsSetIn s.environment t (c.timing t)) ∧
      (∀ a, Command.ofArguments? s.environment a .tail =
          some (.tail source log whileExists pollInterval) →
        Command.IsGivenBy pollInterval (a.value? .pollInterval)) ∧
      (∀ settings : Settings, settings.check = none ↔ settings.Fits) ∧
      (c.Fits → asked.Fits → ∀ t, tailSource s source = .ok t →
        outcome = attach s json asked t log whileExists) ∧
      (¬c.Fits → ∃ e, outcome = some ⟨[], some (.environment e), s.disk⟩) ∧
      (c.Fits → ¬asked.Fits → ∃ e, outcome = some ⟨[], some (.pollInterval e), s.disk⟩) ∧
      (c.Fits → asked.Fits → ∀ e, tailSource s source = .error e →
        outcome = some ⟨[], some e, s.disk⟩) := by
  intro c asked outcome
  refine ⟨Settings.isSetIn_ofEnvironment s.environment,
    fun a ha => Command.isGivenBy_of_arguments ha, Settings.check_eq_none_iff_fits, ?_, ?_, ?_, ?_⟩
  · intro hc hasked t hsource
    exact (run_of_fits hc).trans (runTail_of_fits hasked hsource)
  · intro hc
    exact run_of_not_fits hc
  · intro hc hasked
    obtain ⟨e, he⟩ := runTail_of_not_fits hc hasked
    exact ⟨e, (run_of_fits hc).trans he⟩
  · intro hc hasked e hsource
    exact (run_of_fits hc).trans (runTail_of_no_source hasked hsource)

/-- By default a pass ends after 100 milliseconds without a frame, so a wait of 100 is too short. -/
example (disk : Disk) (input : List UInt8) (a : Attachment) (time log : Text) (drain : Drain)
    (faults : List (Option FileLog.Fault)) :
    run ⟨disk, input, [], a, time, drain, faults⟩ ⟨false, .tail ['-'] log none (some 100)⟩ =
      some ⟨[], some (.pollInterval
        (.idleTooLong (Duration.ofMillis 100) (Duration.ofMillis 100))), disk⟩ := by rfl

end Invocation

end BuildStep
