import BuildStep.Proofs.Command.Admission

/-!
# The size that is reported of a log

Whoever asks for a log is told how many bytes it has.  They are counted in the text that was read from
the file, and there each flaw has become the three bytes of U+FFFD.  So the count is that of the file
if the file is UTF-8, or has no flaws but those of three bytes; of any other file it is too great.

## Key results

- `Command.runLogStatus_of_file`: what is reported of a file
- `Invocation.run_logStatus`: by how much the size is wrong, and when it is right
- `Invocation.exists_wrong_size`: a file of one byte that is reported to have three
-/

namespace BuildStep

variable {s : Session} {log : Text} {serial : Nat} {content : List UInt8} {live : Bool}

/-- What is shown of a log. -/
def LogReport.shown (r : LogReport) (json : Bool) : Text :=
  if json then Command.jsonLines (Command.logReportToJson r) else r.render

theorem Disk.read_of_file (hfile : s.disk.get log = .ok (.file serial content)) :
    s.disk.read log = .ok content := by
  rw [read, hfile]
  rfl

namespace Command

theorem runLogStatus_of_file (json : Bool) (hfile : s.disk.get log = .ok (.file serial content))
    (hmarker : s.disk.isThere? (FileLog.markerPath log) = .ok live) :
    runLogStatus s json log =
      ⟨LogReport.shown ⟨log, live, Utf8.size (Utf8.decode content),
        (Text.lines (Utf8.decode content)).length⟩ json, none, s.disk⟩ := by
  rw [runLogStatus, Snapshot.read, hmarker, Disk.read_of_file hfile]
  rfl

/-- If it cannot be told whether there is a marker, the log is not read. -/
theorem runLogStatus_of_no_marker (json : Bool) {e : IoError}
    (hmarker : s.disk.isThere? (FileLog.markerPath log) = .error e) :
    runLogStatus s json log = ⟨[], some (.readLog log e), s.disk⟩ := by
  rw [runLogStatus, Snapshot.read, hmarker]
  rfl

end Command

namespace Session

/-- Nothing but one log, and an environment in which nothing is set. -/
def ofLog (content : List UInt8) : Session :=
  ⟨⟨[(["l.log".toList], .file 0 content)], 1⟩, [], [], ⟨0⟩, [], .strict, []⟩

theorem get_ofLog (content : List UInt8) :
    (ofLog content).disk.get "l.log".toList = .ok (.file 0 content) := by rfl

theorem isThere_ofLog (content : List UInt8) :
    (ofLog content).disk.isThere? (FileLog.markerPath "l.log".toList) = .ok false := by rfl

theorem fits_ofLog (content : List UInt8) :
    (Settings.ofEnvironment (ofLog content).environment).Fits :=
  (Settings.check_eq_none_iff_fits _).mp (by rfl)

end Session

namespace Invocation

/-- The size in the `LogReport` of a file exceeds its number of bytes by the `Utf8.shortage` of its
flaws, so it is right just if all flaws have three bytes, and always for `Utf8.encode t`. -/
theorem run_logStatus (hfits : (Settings.ofEnvironment s.environment).Fits)
    (hfile : s.disk.get log = .ok (.file serial content)) :
    ∃ flaws bytes, Utf8.Flaws content flaws ∧ bytes = content.length + Utf8.shortage flaws ∧
      (∀ flaw ∈ flaws, 1 ≤ flaw.length ∧ flaw.length ≤ 3) ∧
      (bytes = content.length ↔ ∀ flaw ∈ flaws, flaw.length = 3) ∧
      (∀ t, content = Utf8.encode t → bytes = content.length) ∧
      ∀ json, match s.disk.isThere? (FileLog.markerPath log) with
        | .ok live =>
          run s ⟨json, .logStatus log⟩ =
            some ⟨LogReport.shown ⟨log, live, bytes,
              (Text.lines (Utf8.decode content)).length⟩ json, none, s.disk⟩
        | .error e =>
          run s ⟨json, .logStatus log⟩ = some ⟨[], some (.readLog log e), s.disk⟩ := by
  obtain ⟨flaws, hflaws⟩ := Utf8.exists_flaws content
  have hsize := hflaws.size_decode
  refine ⟨flaws, Utf8.size (Utf8.decode content), hflaws, hsize, hflaws.length_mem, ?_, ?_, ?_⟩
  · rw [hsize, ← hflaws.shortage_eq_zero_iff]
    omega
  · rintro t rfl
    rw [Utf8.decode_encode, Utf8.length_encode]
  · intro json
    have hrun : run s ⟨json, .logStatus log⟩ = some (Command.runLogStatus s json log) :=
      run_of_fits hfits
    rw [hrun]
    cases hmarker : s.disk.isThere? (FileLog.markerPath log) with
    | ok live => exact congrArg some (Command.runLogStatus_of_file json hfile hmarker)
    | error e => exact congrArg some (Command.runLogStatus_of_no_marker json hmarker)

/-- Two letters and the first byte of a character that was cut off: the one byte is counted as three. -/
theorem run_logStatus_of_cut_character :
    let s := Session.ofLog [0x6F, 0x6B, 0xC3]
    ∃ flaws, Utf8.Flaws [0x6F, 0x6B, 0xC3] flaws ∧ Utf8.shortage flaws = 2 ∧
      ∀ json, run s ⟨json, .logStatus "l.log".toList⟩ =
        some ⟨LogReport.shown ⟨"l.log".toList, false, 5, 1⟩ json, none, s.disk⟩ := by
  intro s
  obtain ⟨flaws, bytes, hflaws, hbytes, -, -, -, hrun⟩ :=
    run_logStatus (Session.fits_ofLog _) (Session.get_ofLog [0x6F, 0x6B, 0xC3])
  have hsize : Utf8.size (Utf8.decode [0x6F, 0x6B, 0xC3]) = 5 := by decide
  have hlines : (Text.lines (Utf8.decode [0x6F, 0x6B, 0xC3])).length = 1 := by decide
  have hfive : bytes = 5 := by rw [hbytes, ← hflaws.size_decode, hsize]
  refine ⟨flaws, hflaws, ?_, ?_⟩
  · simp only [List.length_cons, List.length_nil] at hbytes
    omega
  · rwa [Session.isThere_ofLog, hfive, hlines] at hrun

/-- A file may be reported to have more bytes than it has. -/
theorem exists_wrong_size : ∃ (s : Session) (log : Text) (content : List UInt8) (bytes : Nat),
    s.disk.get log = .ok (.file 0 content) ∧
      (∀ json, run s ⟨json, .logStatus log⟩ =
        some ⟨LogReport.shown ⟨log, false, bytes, 1⟩ json, none, s.disk⟩) ∧
      bytes ≠ content.length := by
  have hsize : Utf8.size (Utf8.decode [0xFF]) = 3 := by decide
  have hlines : (Text.lines (Utf8.decode [0xFF])).length = 1 := by decide
  refine ⟨Session.ofLog [0xFF], "l.log".toList, [0xFF], 3, Session.get_ofLog _, ?_, by decide⟩
  intro json
  have hstatus := Command.runLogStatus_of_file json (Session.get_ofLog [0xFF])
    (Session.isThere_ofLog _)
  rw [hsize, hlines] at hstatus
  exact (run_of_fits (Session.fits_ofLog _)).trans (congrArg some hstatus)

end Invocation

end BuildStep
