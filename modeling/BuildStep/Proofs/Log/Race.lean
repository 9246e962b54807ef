import BuildStep.Proofs.Log.Faults

/-!
# Reading a log while it is written

A writer opens a log with a marker, writes to it and finalizes it; meanwhile a reader looks for the
marker and then reads the file.  The writer takes its time: it makes the file before it writes the
marker, and flushes before it removes the marker.  Steps of the reader can fall between any two steps
of the writer.

What the reader gets is a beginning of the log in any case.  It is the whole log if the reader
looked for the marker after it was written and did not find it, or if it read the file after the last
flush.  A reader that looks for the marker before it is written finds none either, and may
then report a log as complete of which it has seen nothing.

## Key results

- `run_open`, `run_finalize`, `run_read`: the steps are those that opening, finalizing and reading
  a log consist of
- `Onward.of_step`: what one step of the writer does
- `Explained.step`, `explained_run`: what holds after any steps
- `snapshot_of_run`: what the reader gets
- `exists_incomplete`: what it gets in between the two steps of opening
-/

namespace BuildStep.LogRace

open FileLog (markerPath markerContent)
open Disk (Holds Keeps Marked Written)

/-- How far the writer of a log has come. -/
inductive Writing
  | ahead
  /-- The file was made, but no marker. -/
  | created (serial : Nat)
  | underway (log : FileLog)
  /-- The buffer was written for the last time; the marker is still there. -/
  | flushed (log : FileLog)
  | finalized
deriving DecidableEq, Repr

/-- How far the reader of a log has come. -/
inductive Reading
  | ahead
  /-- The marker was looked for. -/
  | checked (live : Bool)
  | finished (found : Snapshot)
deriving DecidableEq, Repr

/-- The disk that a writer and a reader of one log share, and how far they have come. -/
structure State where
  disk : Disk
  writing : Writing
  reading : Reading
deriving DecidableEq, Repr

/-- A step of the writer or of the reader. -/
inductive Step
  | create
  | mark
  | append (t : Text)
  | flush
  | finish
  | unmark
  | check
  | read
deriving DecidableEq, Repr

/-- The state after the writer has called on its log. -/
def State.called (s : State) (d : DiskLog) : State :=
  { s with disk := d.disk, writing := .underway d.log }

section Steps

variable (path : Text) (a : Attachment) (since : Text)

/-- One step, if it is due and succeeds. -/
def step (s : State) : Step → Option State
  | .create =>
    match s.writing, s.disk.openAppend path with
    | .ahead, .ok (serial, disk) => some { s with disk := disk, writing := .created serial }
    | _, _ => none
  | .mark =>
    match s.writing, s.disk.write (markerPath path) (markerContent a since) with
    | .created serial, .ok disk =>
      some (s.called ⟨disk, ⟨path, some (markerPath path), some ⟨serial, []⟩, true⟩, []⟩)
    | _, _ => none
  | .append t =>
    match s.writing with
    | .underway log => some (s.called (DiskLog.append ⟨s.disk, log, []⟩ t).2)
    | _ => none
  | .flush =>
    match s.writing with
    | .underway log => some (s.called (DiskLog.flush ⟨s.disk, log, []⟩).2)
    | _ => none
  | .finish =>
    match s.writing with
    | .underway log =>
      log.writer.map fun w =>
        { s with disk := s.disk.appendTo w.serial w.pending, writing := .flushed log }
    | _ => none
  | .unmark =>
    match s.writing with
    | .flushed log =>
      some { s with disk := DiskLog.withoutMarker ⟨s.disk, log, []⟩, writing := .finalized }
    | _ => none
  | .check =>
    match s.reading, s.disk.isThere? (markerPath path) with
    | .ahead, .ok live => some { s with reading := .checked live }
    | _, _ => none
  | .read =>
    match s.reading, s.disk.read path with
    | .checked live, .ok bytes => some { s with reading := .finished ⟨Utf8.decode bytes, live⟩ }
    | _, _ => none

/-- Steps of the writer and of the reader in the order in which they are taken. -/
def run (s : State) (moves : List Step) : Option State :=
  moves.foldlM (step path a since) s

variable {path a since}

/-! ## The steps put together -/

/-- Opening a log takes two steps. -/
theorem run_open {d d' : Disk} {log : FileLog} {reading : Reading}
    (h : FileLog.openOn d path a since true = (.ok log, d')) :
    run path a since ⟨d, .ahead, reading⟩ [.create, .mark] = some ⟨d', .underway log, reading⟩ := by
  rw [FileLog.openOn] at h
  cases hopen : d.openAppend path with
  | error e =>
    rw [hopen] at h
    cases h
  | ok opened =>
    obtain ⟨serial, opened⟩ := opened
    simp only [hopen, if_true] at h
    cases hwrite : opened.write (markerPath path) (markerContent a since) with
    | error e =>
      rw [hwrite] at h
      cases h
    | ok marked =>
      rw [hwrite] at h
      cases h
      simp [run, step, hopen, hwrite, State.called]

/-- Finalizing a log takes two steps. -/
theorem run_finalize {d : Disk} {log : FileLog} {reading : Reading} (h : log.writer ≠ none) :
    run path a since ⟨d, .underway log, reading⟩ [.finish, .unmark] =
      some ⟨(DiskLog.finalize ⟨d, log, []⟩).2.disk, .finalized, reading⟩ := by
  cases hwriter : log.writer with
  | none => exact absurd hwriter h
  | some w =>
    simp [run, step, hwriter, DiskLog.finalize, DiskLog.writeBuffer, DiskLog.write, DiskLog.closed,
      DiskLog.withWriter, DiskLog.withoutMarker]

/-- Reading a log takes two steps. -/
theorem run_read {d : Disk} {writing : Writing} {found : Snapshot} :
    run path a since ⟨d, writing, .ahead⟩ [.check, .read] = some ⟨d, writing, .finished found⟩ ↔
      Snapshot.read d path = .ok found := by
  cases hcheck : d.isThere? (markerPath path) with
  | error e => simp [run, step, Snapshot.read, hcheck, bind, Except.bind]
  | ok live =>
    cases hread : d.read path with
    | error e => simp [run, step, Snapshot.read, hcheck, hread, bind, Except.bind]
    | ok bytes =>
      simp [run, step, Snapshot.read, hcheck, hread, bind, Except.bind, pure, Except.pure]

end Steps

/-! ## What the steps of the writer do -/

/-- How many of its stages the writer has come through. -/
def Writing.stage : Writing → Nat
  | .ahead => 0
  | .created _ => 1
  | .underway _ => 2
  | .flushed _ => 3
  | .finalized => 4

/-- What is on the disk when the writer has come so far. -/
def Sound (path : Text) (d : Disk) : Writing → Prop
  | .ahead => ∀ content, d.get path ≠ .ok (.pipe content)
  | .created serial => ∃ names content, d.Holds path names serial content
  | .underway log => ∃ names beside serial pending, Marked path names beside serial d ∧
      log = ⟨path, some (markerPath path), some ⟨serial, pending⟩, true⟩
  | .flushed log => ∃ names beside serial, Marked path names beside serial d ∧
      log.marker = some (markerPath path)
  | .finalized => ∃ names serial content, d.Holds path names serial content

variable {path : Text} {a : Attachment} {since : Text} {names beside : List Text} {serial : Nat}
  {d d' : Disk}

/-- A step of the writer leaves the reader alone and what is in the file, to which it may add until
the last flush. -/
structure Onward (path : Text) (s s' : State) : Prop where
  sound : Sound path s'.disk s'.writing
  reading : s'.reading = s.reading
  stage : s.writing.stage ≤ s'.writing.stage
  grows : ∀ content, s.disk.read path = .ok content → ∃ more,
    s'.disk.read path = .ok (content ++ more) ∧ (3 ≤ s.writing.stage → more = [])
  due : s.writing ≠ .finalized

section Writer

variable {s s' : State}

/-- A log that can be read before it is opened is a file, and opening leaves it as it is. -/
theorem read_openAppend (hpipe : ∀ content, d.get path ≠ .ok (.pipe content))
    (hopen : d.openAppend path = .ok (serial, d')) {content : List UInt8}
    (hread : d.read path = .ok content) : d'.read path = .ok content := by
  obtain ⟨names, content', hholds, hsame⟩ := Disk.openAppend_eq_ok hopen
  rw [Disk.read] at hread
  cases hget : d.get path with
  | error e =>
    rw [hget] at hread
    cases hread
  | ok node =>
    rw [hget] at hread
    cases node with
    | file serial' found =>
      cases hread
      rw [hsame serial' content hget]
      exact hholds.read
    | directory => cases hread
    | pipe found => exact absurd hget (hpipe found)

theorem Onward.of_create (hsound : Sound path s.disk s.writing)
    (h : step path a since s .create = some s') : Onward path s s' := by
  simp only [step] at h
  split at h
  · rename_i serial disk hwriting hopen
    cases h
    rw [hwriting] at hsound
    obtain ⟨names, content, hholds, -⟩ := Disk.openAppend_eq_ok hopen
    refine ⟨⟨names, content, hholds⟩, rfl, by simp [hwriting, Writing.stage], ?_, by simp [hwriting]⟩
    intro content' hread
    refine ⟨[], ?_, fun _ => rfl⟩
    rw [List.append_nil]
    exact read_openAppend hsound hopen hread
  · cases h

theorem Onward.of_mark (hsound : Sound path s.disk s.writing)
    (h : step path a since s .mark = some s') : Onward path s s' := by
  simp only [step] at h
  split at h
  · rename_i serial disk hwriting hwrite
    cases h
    rw [hwriting] at hsound
    obtain ⟨names, content, hlog⟩ := hsound
    obtain ⟨beside, other, hleads, hmarker, hkeeps, hothers⟩ := Disk.write_eq_ok hwrite
    -- the marker is written to an entry of its own, so the log stays as it is
    have hapart : beside ≠ names :=
      (Disk.markerPath_ne (Keeps.refl _) hlog.leads hlog.not_directory rfl hleads).1
    have hlog' : disk.Holds path names serial content :=
      hlog.of_keeps hkeeps (hothers names hapart.symm)
    have hmarked : Marked path names beside serial disk :=
      ⟨⟨content, hlog'⟩, ⟨other, _, hmarker⟩, hapart⟩
    refine ⟨⟨names, beside, serial, [], hmarked, rfl⟩, rfl,
      by simp [hwriting, Writing.stage, State.called], ?_, by simp [hwriting]⟩
    intro content' hread
    rw [hlog.read] at hread
    cases hread
    refine ⟨[], ?_, fun _ => rfl⟩
    rw [List.append_nil]
    exact hlog'.read
  · cases h

/-- A call that writes to the end of the file, and may leave something else in the buffer. -/
theorem Onward.of_call {log : FileLog} {w : FileLog.Writer} {d : DiskLog} {pending : List UInt8}
    (hwriting : s.writing = .underway log) (hsound : Sound path s.disk (.underway log))
    (hwriter : log.writer = some w) (hwritten : Written w.serial s.disk d.disk)
    (hlog : d.log = { log with writer := some ⟨w.serial, pending⟩ }) :
    Onward path s (s.called d) := by
  obtain ⟨names, beside, serial, pending', hmarked, rfl⟩ := hsound
  cases hwriter
  refine ⟨⟨names, beside, serial, pending, hmarked.written hwritten, hlog⟩, rfl,
    by simp [hwriting, Writing.stage, State.called], ?_, by simp [hwriting]⟩
  intro content hread
  obtain ⟨more, hmore⟩ := hmarked.read_written hwritten hread
  exact ⟨more, hmore, by simp [hwriting, Writing.stage]⟩

theorem Onward.of_append {t : Text} (hsound : Sound path s.disk s.writing)
    (h : step path a since s (.append t) = some s') : Onward path s s' := by
  simp only [step] at h
  split at h
  · rename_i log hwriting
    cases h
    rw [hwriting] at hsound
    obtain ⟨w, hwriter⟩ : ∃ w, log.writer = some w := by
      obtain ⟨_, _, serial, pending, _, rfl⟩ := hsound
      exact ⟨_, rfl⟩
    obtain ⟨hwritten, pending, hlog⟩ := DiskLog.wrote_append (d := ⟨s.disk, log, []⟩) hwriter t
    exact Onward.of_call hwriting hsound hwriter hwritten hlog
  · cases h

theorem Onward.of_flush (hsound : Sound path s.disk s.writing)
    (h : step path a since s .flush = some s') : Onward path s s' := by
  simp only [step] at h
  split at h
  · rename_i log hwriting
    cases h
    rw [hwriting] at hsound
    obtain ⟨w, hwriter⟩ : ∃ w, log.writer = some w := by
      obtain ⟨_, _, serial, pending, _, rfl⟩ := hsound
      exact ⟨_, rfl⟩
    obtain ⟨hwritten, pending, hlog⟩ := DiskLog.wrote_flush (d := ⟨s.disk, log, []⟩) hwriter
    exact Onward.of_call hwriting hsound hwriter hwritten hlog
  · cases h

theorem Onward.of_finish (hsound : Sound path s.disk s.writing)
    (h : step path a since s .finish = some s') : Onward path s s' := by
  simp only [step] at h
  split at h
  · rename_i log hwriting
    rw [hwriting] at hsound
    obtain ⟨names, beside, serial, pending, hmarked, rfl⟩ := hsound
    cases h
    have hwritten : Written serial s.disk (s.disk.appendTo serial pending) := .more .nothing pending
    refine ⟨⟨names, beside, serial, hmarked.written hwritten, rfl⟩, rfl,
      by simp [hwriting, Writing.stage], ?_, by simp [hwriting]⟩
    intro content hread
    obtain ⟨more, hmore⟩ := hmarked.read_written hwritten hread
    exact ⟨more, hmore, by simp [hwriting, Writing.stage]⟩
  · cases h

/-- The marker is removed and nothing else. -/
theorem Onward.of_unmark (hsound : Sound path s.disk s.writing)
    (h : step path a since s .unmark = some s') : Onward path s s' := by
  simp only [step] at h
  split at h
  · rename_i log hwriting
    cases h
    rw [hwriting] at hsound
    obtain ⟨names, beside, serial, ⟨⟨content, hlog⟩, ⟨other, text, hmarker⟩, hapart⟩, hlogMarker⟩ :=
      hsound
    have hdisk : DiskLog.withoutMarker ⟨s.disk, log, []⟩ = s.disk.delete beside := by
      simp only [DiskLog.withoutMarker, hlogMarker, hmarker.remove]
    have hlog' : (s.disk.delete beside).Holds path names serial content :=
      hlog.of_keeps (Disk.keeps_delete hmarker.not_directory)
        (Disk.node?_delete_of_ne hapart.symm s.disk)
    refine ⟨⟨names, serial, content, ?_⟩, rfl, by simp [hwriting, Writing.stage], ?_,
      by simp [hwriting]⟩
    · rw [hdisk]
      exact hlog'
    · intro content' hread
      rw [hlog.read] at hread
      cases hread
      refine ⟨[], ?_, fun _ => rfl⟩
      rw [List.append_nil, hdisk]
      exact hlog'.read
  · cases h

/-- Every step of the writer leads onward. -/
theorem Onward.of_step {move : Step} (hcheck : move ≠ .check) (hread : move ≠ .read)
    (hsound : Sound path s.disk s.writing) (h : step path a since s move = some s') :
    Onward path s s' := by
  cases move with
  | create => exact .of_create hsound h
  | mark => exact .of_mark hsound h
  | append t => exact .of_append hsound h
  | flush => exact .of_flush hsound h
  | finish => exact .of_finish hsound h
  | unmark => exact .of_unmark hsound h
  | check => exact absurd rfl hcheck
  | read => exact absurd rfl hread

end Writer

/-! ## What the reader can know -/

/-- Both steps were taken, one of them first. -/
def Before (first second : Step) (moves : List Step) : Prop :=
  ∃ earlier later, moves = earlier ++ second :: later ∧ first ∈ earlier

theorem before_concat {first second move : Step} {moves : List Step} :
    Before first second (moves ++ [move]) ↔
      Before first second moves ∨ move = second ∧ first ∈ moves := by
  constructor
  · rintro ⟨earlier, later, hmoves, hfirst⟩
    rcases List.eq_nil_or_concat later with rfl | ⟨later, last, rfl⟩
    · obtain ⟨rfl, hlast⟩ := List.append_inj' hmoves rfl
      exact .inr ⟨(List.cons.inj hlast).1, hfirst⟩
    · rw [List.concat_eq_append, ← List.cons_append, ← List.append_assoc] at hmoves
      obtain ⟨rfl, -⟩ := List.append_inj' hmoves rfl
      exact .inl ⟨earlier, later, rfl, hfirst⟩
  · rintro (⟨earlier, later, rfl, hfirst⟩ | ⟨rfl, hfirst⟩)
    · exact ⟨earlier, later ++ [move], by simp, hfirst⟩
    · exact ⟨moves, [], rfl, hfirst⟩

theorem Before.mem {first second : Step} {moves : List Step} (h : Before first second moves) :
    second ∈ moves := by
  obtain ⟨earlier, later, rfl, -⟩ := h
  simp

/-- What the reader has found is the whole log, judging by the order of the steps. -/
def Telling (moves : List Step) (live : Bool) : Prop :=
  Before .finish .read moves ∨ Before .mark .check moves ∧ live = false

/-- What the reader knows after some steps. -/
def Known (path : Text) (moves : List Step) (s : State) : Reading → Prop
  | .ahead => .check ∉ moves ∧ .read ∉ moves
  | .checked live =>
    .read ∉ moves ∧ (Before .mark .check moves → live = false → s.writing = .finalized)
  | .finished found => ∃ seen more, found.text = Utf8.decode seen ∧
      s.disk.read path = .ok (seen ++ more) ∧
      (Telling moves found.live → more = [] ∧ 3 ≤ s.writing.stage)

/-- What holds after some steps. -/
structure Explained (path : Text) (moves : List Step) (s : State) : Prop where
  sound : Sound path s.disk s.writing
  marked : .mark ∈ moves → 2 ≤ s.writing.stage
  finished : .finish ∈ moves → 3 ≤ s.writing.stage
  known : Known path moves s s.reading

variable {s s' : State} {moves : List Step}

/-- The marker is there while the log is written to. -/
theorem isThere?_of_sound (hsound : Sound path s.disk s.writing) (hstage : 2 ≤ s.writing.stage)
    (hdue : s.writing ≠ .finalized) : s.disk.isThere? (markerPath path) = .ok true := by
  cases hwriting : s.writing with
  | ahead => simp [hwriting, Writing.stage] at hstage
  | created serial => simp [hwriting, Writing.stage] at hstage
  | underway log =>
    rw [hwriting] at hsound
    obtain ⟨_, _, _, _, ⟨_, ⟨_, _, hmarker⟩, _⟩, _⟩ := hsound
    exact hmarker.isThere?
  | flushed log =>
    rw [hwriting] at hsound
    obtain ⟨_, _, _, ⟨_, ⟨_, _, hmarker⟩, _⟩, _⟩ := hsound
    exact hmarker.isThere?
  | finalized => exact absurd hwriting hdue

/-- What the reader knows stays true when the writer goes on. -/
theorem Known.onward {move : Step} {reading : Reading} (hcheck : move ≠ .check)
    (hread : move ≠ .read) (honward : Onward path s s') (h : Known path moves s reading) :
    Known path (moves ++ [move]) s' reading := by
  have hnot : ∀ other, move ≠ other → other ∉ moves → other ∉ moves ++ [move] := by
    intro other hne hmem
    rw [List.mem_append, List.mem_singleton]
    rintro (hin | rfl)
    · exact hmem hin
    · exact hne rfl
  have hbefore : ∀ first second, move ≠ second → Before first second (moves ++ [move]) →
      Before first second moves := by
    intro first second hne hbefore
    rcases before_concat.mp hbefore with h | ⟨rfl, -⟩
    · exact h
    · exact absurd rfl hne
  cases reading with
  | ahead => exact ⟨hnot _ hcheck h.1, hnot _ hread h.2⟩
  | checked live =>
    refine ⟨hnot _ hread h.1, ?_⟩
    intro hmark hlive
    -- the log was finalized, and no step of the writer was due
    exact absurd (h.2 (hbefore _ _ hcheck hmark) hlive) honward.due
  | finished found =>
    obtain ⟨seen, more, htext, hcontent, htelling⟩ := h
    obtain ⟨added, hadded, hsettled⟩ := honward.grows _ hcontent
    refine ⟨seen, more ++ added, htext, by rw [hadded, List.append_assoc], ?_⟩
    intro htells
    have htold : Telling moves found.live := by
      rcases htells with h | ⟨h, hlive⟩
      · exact .inl (hbefore _ _ hread h)
      · exact .inr ⟨hbefore _ _ hcheck h, hlive⟩
    -- what was the whole log then is so still, as nothing is added after the last flush
    obtain ⟨rfl, hstage⟩ := htelling htold
    exact ⟨hsettled hstage, hstage.trans honward.stage⟩

/-- The step of the writer that is taken has brought it to its stage. -/
theorem stage_of_step {move : Step} (h : step path a since s move = some s') :
    (move = .mark → 2 ≤ s'.writing.stage) ∧ (move = .finish → 3 ≤ s'.writing.stage) := by
  refine ⟨?_, ?_⟩
  · rintro rfl
    simp only [step] at h
    split at h
    · cases h
      simp [State.called, Writing.stage]
    · cases h
  · rintro rfl
    simp only [step] at h
    split at h
    · obtain ⟨w, -, rfl⟩ := Option.map_eq_some_iff.mp h
      simp [Writing.stage]
    · cases h

theorem Explained.after_check (h : Explained path moves s)
    (hstep : step path a since s .check = some s') : Explained path (moves ++ [.check]) s' := by
  simp only [step] at hstep
  split at hstep
  · rename_i live hreading hthere
    cases hstep
    have hknown := h.known
    rw [hreading] at hknown
    refine ⟨h.sound, by simpa using h.marked, by simpa using h.finished, ?_, ?_⟩
    · simpa using hknown.2
    · intro hbefore hlive
      have hmark : .mark ∈ moves := by
        rcases before_concat.mp hbefore with hbefore | ⟨-, hmark⟩
        · exact absurd hbefore.mem hknown.1
        · exact hmark
      by_contra hdue
      rw [isThere?_of_sound h.sound (h.marked hmark) hdue, hlive] at hthere
      cases hthere
  · cases hstep

theorem Explained.after_read (h : Explained path moves s)
    (hstep : step path a since s .read = some s') : Explained path (moves ++ [.read]) s' := by
  simp only [step] at hstep
  split at hstep
  · rename_i live bytes hreading hread
    cases hstep
    have hknown := h.known
    rw [hreading] at hknown
    refine ⟨h.sound, by simpa using h.marked, by simpa using h.finished, bytes, [], rfl, ?_, ?_⟩
    · rw [List.append_nil]
      exact hread
    · intro htells
      refine ⟨rfl, ?_⟩
      -- the read is the last step, so what came before it came before now
      rcases htells with hbefore | ⟨hbefore, hlive⟩
      · rcases before_concat.mp hbefore with hbefore | ⟨-, hfinish⟩
        · exact absurd hbefore.mem hknown.1
        · exact h.finished hfinish
      · rcases before_concat.mp hbefore with hbefore | ⟨hread, -⟩
        · simp [hknown.2 hbefore hlive, Writing.stage]
        · cases hread
  · cases hstep

/-- What holds after some steps holds after one more. -/
theorem Explained.after_step {move : Step} (h : Explained path moves s)
    (hstep : step path a since s move = some s') : Explained path (moves ++ [move]) s' := by
  by_cases hcheck : move = .check
  · subst hcheck
    exact h.after_check hstep
  by_cases hread : move = .read
  · subst hread
    exact h.after_read hstep
  · have honward := Onward.of_step hcheck hread h.sound hstep
    obtain ⟨hmark, hfinish⟩ := stage_of_step hstep
    refine ⟨honward.sound, ?_, ?_, ?_⟩
    · rw [List.mem_append, List.mem_singleton]
      rintro (hin | rfl)
      · exact (h.marked hin).trans honward.stage
      · exact hmark rfl
    · rw [List.mem_append, List.mem_singleton]
      rintro (hin | rfl)
      · exact (h.finished hin).trans honward.stage
      · exact hfinish rfl
    · rw [honward.reading]
      exact h.known.onward hcheck hread honward

theorem explained_run (h : Explained path [] s) (hrun : run path a since s moves = some s') :
    Explained path moves s' := by
  induction moves using List.reverseRecOn generalizing s' with
  | nil =>
    cases hrun
    exact h
  | append_singleton moves move ih =>
    rw [run, List.foldlM_append] at hrun
    obtain ⟨s₁, hmoves, hmove⟩ := Option.bind_eq_some_iff.mp hrun
    rw [List.foldlM_cons] at hmove
    obtain ⟨s₂, hmove, hs₂⟩ := Option.bind_eq_some_iff.mp hmove
    cases hs₂
    exact (ih hmoves).after_step hmove

/-- In whatever order writer and reader take their steps, the `Snapshot` is a beginning of the log
that is left behind.  It is all of it if `read` came after `finish`, or if `check` came after `mark`
and found no marker. -/
theorem snapshot_of_run {d : Disk} {found : Snapshot}
    (hpipe : ∀ content, d.get path ≠ .ok (.pipe content))
    (hrun : run path a since ⟨d, .ahead, .ahead⟩ moves = some s)
    (hfound : s.reading = .finished found) :
    ∃ seen content, found.text = Utf8.decode seen ∧ s.disk.read path = .ok content ∧
      seen <+: content ∧
      (Before .finish .read moves ∨ Before .mark .check moves ∧ found.live = false →
        seen = content) := by
  have hstart : Explained path [] ⟨d, .ahead, .ahead⟩ :=
    ⟨hpipe, List.not_mem_nil.elim, List.not_mem_nil.elim, List.not_mem_nil, List.not_mem_nil⟩
  have hknown := (explained_run hstart hrun).known
  rw [hfound] at hknown
  obtain ⟨seen, more, htext, hcontent, htelling⟩ := hknown
  refine ⟨seen, seen ++ more, htext, hcontent, List.prefix_append seen more, ?_⟩
  intro htells
  rw [(htelling htells).1, List.append_nil]

/-- A reader that looks for the marker when the buffer was written for the last time, and reads when
the marker is gone. -/
theorem snapshot_of_run_around_unmark :
    let path : Text := "build.log".toList
    let moves : List Step := [.create, .mark, .append ['a'], .finish, .check, .unmark, .read]
    ∃ s seen content, run path ⟨7⟩ [] ⟨.empty, .ahead, .ahead⟩ moves = some s ∧
      s.reading = .finished ⟨Utf8.decode seen, true⟩ ∧ s.disk.read path = .ok content ∧
      seen <+: content ∧ seen = content := by
  intro path moves
  have hpipe : ∀ content, Disk.empty.get path ≠ .ok (.pipe content) := by
    intro content h
    cases h
  have hruns : (run path ⟨7⟩ [] ⟨.empty, .ahead, .ahead⟩ moves).map State.reading =
      some (.finished ⟨['a'], true⟩) := by decide +kernel
  obtain ⟨s, hrun, hreading⟩ := Option.map_eq_some_iff.mp hruns
  obtain ⟨seen, content, htext, hread, hprefix, htells⟩ := snapshot_of_run hpipe hrun hreading
  have hbefore : Before .finish .read moves :=
    ⟨[.create, .mark, .append ['a'], .finish, .check, .unmark], [], rfl, by decide⟩
  refine ⟨s, seen, content, hrun, ?_, hread, hprefix, htells (.inl hbefore)⟩
  rw [hreading, ← htext]

/-- Between the two steps of opening there is a log without a marker.  Who looks then takes the log
for complete, although nothing was written to it yet. -/
theorem exists_incomplete :
    let path : Text := "build.log".toList
    Disk.empty.isThere? (markerPath path) = .ok false ∧
      ¬ ∀ moves s found, run path ⟨7⟩ [] ⟨.empty, .ahead, .ahead⟩ moves = some s →
        s.writing = .finalized → s.reading = .finished found → found.live = false →
          ∃ content, s.disk.read path = .ok content ∧ found.text = Utf8.decode content := by
  refine ⟨rfl, ?_⟩
  intro h
  obtain ⟨content, hread, htext⟩ := h
    [.create, .check, .read, .mark, .append ['a'], .finish, .unmark] _ ⟨[], false⟩ rfl rfl rfl rfl
  cases hread
  exact absurd htext (by decide)

end BuildStep.LogRace
