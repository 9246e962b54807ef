import BuildStep.Proofs.Log.Memory
import BuildStep.Proofs.Tail.Release

/-!
# What readers see while a tailer writes

A tailer flushes its log at the end of a pass, but not of every pass: one that has counted no frame
does not.  Nothing is lost by that in a log in memory, for such a pass has added nothing to it.  So
readers see whole passes: between two of them they see all text, and in the end as well, since the
log is finalized behind everything else.  In the middle of a pass they see less, and never less
than they saw before.

## Key results

- `MemoryLog.growsInto_performed`: calls take nothing away, from the text or from readers
- `Tailer.keptByPasses_showsAll`: after a pass readers see all, however it ended
- `Tailer.release_showsAll`: so they do after a release
- `Task.started_showsAll`: what readers see of a task
-/

namespace BuildStep

/-! ## Logs that show all there is -/

/-- The log that some calls, given last to first, make of another. -/
def LoggedCall.performed {σ : Type} [LogSink σ] (log : σ) (calls : List LoggedCall) : σ :=
  calls.foldr (fun c log => (c.call.perform log).2) log

theorem LoggedCall.Made.eq_performed {σ : Type} [LogSink σ] {log log' : σ} {calls : List LoggedCall}
    (h : Made log calls log') : log' = performed log calls := by
  induction h with
  | none => rfl
  | call earlier time c ih =>
    rw [ih]
    rfl

namespace MemoryLog

variable {log : MemoryLog} {seen : Text}

/-- Readers see all text. -/
def ShowsAll (log : MemoryLog) : Prop :=
  log.flushedContents? = some log.contents

/-- From one moment to the other neither the text has lost anything, nor that beginning of it that
readers see. -/
def GrowsInto (log log' : MemoryLog) : Prop :=
  log.contents <+: log'.contents ∧ ∃ seen seen', log.flushedContents? = some seen ∧
    log'.flushedContents? = some seen' ∧ seen <+: seen' ∧ seen' <+: log'.contents

theorem showsAll_iff : log.ShowsAll ↔ log.Shows log.contents :=
  ⟨shows_of_flushedContents?, Shows.flushedContents?_eq⟩

theorem showsAll_new : new.ShowsAll := rfl

theorem showsAll_flush (log : MemoryLog) : log.flush.ShowsAll :=
  (shows_flush log).flushedContents?_eq

theorem Shows.showsAll_finalize (h : log.Shows seen) : log.finalize.ShowsAll := by
  rw [showsAll_iff, contents_finalize]
  exact h.finalize

/-- A log refuses text only as a whole. -/
theorem append_of_error {t : Text} {e : IoError} (h : (log.append t).1 = .error e) :
    (log.append t).2 = log := by
  cases hlive : log.live with
  | true =>
    rw [append_of_live hlive] at h
    cases h
  | false => rw [append_of_not_live hlive]

theorem Shows.performed (h : log.Shows seen) (calls : List LoggedCall) :
    log.contents <+: (LoggedCall.performed log calls).contents ∧
      ∃ seen', (LoggedCall.performed log calls).Shows seen' ∧ seen <+: seen' := by
  induction calls with
  | nil => exact ⟨List.prefix_refl _, seen, h, List.prefix_refl _⟩
  | cons c earlier ih =>
    obtain ⟨hcontents, seen₁, hseen₁, hfirst⟩ := ih
    obtain ⟨hmore, seen₂, hseen₂, hsecond⟩ := hseen₁.perform c.call
    exact ⟨hcontents.trans hmore, seen₂, hseen₂, hfirst.trans hsecond⟩

/-- Of the calls that are made on a log none takes anything away, whatever was called before. -/
theorem growsInto_performed (h : log.ShowsAll) {earlier later : List LoggedCall}
    (hle : earlier <:+ later) :
    (LoggedCall.performed log earlier).GrowsInto (LoggedCall.performed log later) := by
  obtain ⟨between, rfl⟩ := hle
  obtain ⟨-, seen, hseen, -⟩ := (showsAll_iff.mp h).performed earlier
  have hlater : LoggedCall.performed log (between ++ earlier) =
      LoggedCall.performed (LoggedCall.performed log earlier) between := List.foldr_append
  rw [hlater]
  obtain ⟨hcontents, seen', hseen', hgrown⟩ := hseen.performed between
  exact ⟨hcontents, seen, seen', hseen.flushedContents?_eq, hseen'.flushedContents?_eq, hgrown,
    hseen'.beginning⟩

end MemoryLog

/-! ## Passes and releases -/

namespace Tailer

variable {w w' : Tailer MemoryLog}

theorem log_of_await {patience : Nat} {answer : Answer} (h : w.await patience = (answer, w')) :
    w'.log = w.log := by
  cases h
  rfl

/-- A frame whose text is refused leaves the log as it was. -/
theorem log_of_deliver_error {f : Frame} {e : IoError} (h : w.deliver f = (.error e, w')) :
    w'.log = w.log := by
  unfold deliver at h
  dsimp only at h
  split at h
  · rename_i e' w₁ happend
    cases h
    unfold appendText at happend
    split at happend
    · cases happend
    · have herror := congrArg Prod.fst happend
      have hlog := congrArg (fun result => result.2.log) happend
      exact hlog.symm.trans (MemoryLog.append_of_error herror)
  · cases h

/-- Readers miss something only if a frame was counted since the last flush. -/
theorem takeFrames_showsAll (c : Settings) (started : Nat) (any : Bool)
    (h : any = false → w.log.ShowsAll) :
    (takeFrames c started any w).2.1 = false → (takeFrames c started any w).2.2.log.ShowsAll := by
  fun_induction takeFrames c started any w with
  | case1 any w hover => exact h
  | case2 any w hover w' hawait =>
    rw [log_of_await hawait]
    exact h
  | case3 any w hover w' hawait =>
    rw [log_of_await hawait]
    exact h
  | case4 any w hover e w' hawait =>
    rw [log_of_await hawait]
    exact h
  | case5 any w hover f waited hawait e w' hdeliver =>
    -- the frame was not counted, and nothing of it is in the log
    rw [log_of_deliver_error hdeliver, log_of_await hawait]
    exact h
  | case6 any w hover f waited hawait delivered hdeliver ih =>
    -- the frame is counted, so the pass will flush the log
    exact ih (by simp)

/-- What readers miss in the course of a pass they see at its end, whatever ended it. -/
theorem keptByPasses_showsAll (c : Settings) :
    LoggedCall.KeptByPasses c fun _ (log : MemoryLog) => log.ShowsAll := by
  intro w h
  have htaken := takeFrames_showsAll c w.now false fun _ => h
  unfold pass
  generalize takeFrames c w.now false w = taking at htaken ⊢
  obtain ⟨ending, any, w₁⟩ := taking
  cases any with
  | false => exact htaken rfl
  | true => exact MemoryLog.showsAll_flush w₁.log

theorem keptByCalls_shows :
    LoggedCall.KeptByCalls fun _ (log : MemoryLog) => ∃ seen, log.Shows seen := by
  rintro calls log time c ⟨seen, hseen⟩
  obtain ⟨-, seen', hseen', -⟩ := hseen.perform c
  exact ⟨seen', hseen'⟩

/-- The text that a release adds is shown when it finalizes the log. -/
theorem release_showsAll (h : ∃ seen, w.log.Shows seen) (s : Surroundings) :
    (w.release s).log.ShowsAll := by
  have hrests := keptByCalls_shows.keptByWriting.appendRests h StreamType.all
  unfold release
  generalize w.appendRests StreamType.all = rests at hrests ⊢
  have hreleased := LoggedCall.KeptByWriting.of_releaseTransport
    (P := fun _ (log : MemoryLog) => ∃ seen, log.Shows seen) hrests s.drain s.settings.releaseTimeout
  generalize rests.releaseTransport s.drain s.settings.releaseTimeout = released at hreleased ⊢
  obtain ⟨seen, hseen⟩ := hreleased
  exact hseen.showsAll_finalize

end Tailer

/-! ## Tasks -/

namespace Task

/-- A `MemoryLog` that is tailed `ShowsAll` between any two passes and once the task has stopped.
At every call it `GrowsInto` each later state: neither its text nor what readers see loses anything. -/
theorem started_showsAll {log : MemoryLog} (hlog : log.ShowsAll) (s : Surroundings)
    (arrivals : List Arrival) (n : Nat) :
    let t := started s log arrivals n
    (t.leaving = none → t.worker.log.ShowsAll ∧ (t.worker.pass s.settings).2.log.ShowsAll ∧
      (t.worker.round s).2.log.ShowsAll) ∧
      (t.phase = .stopped → t.worker.log.ShowsAll) ∧
      t.worker.log = LoggedCall.performed log t.worker.calls ∧
      (∀ m ≤ n, (started s log arrivals m).worker.calls <:+ t.worker.calls) ∧
      ∀ later, later <:+ t.worker.calls → ∀ earlier, earlier <:+ later →
        (LoggedCall.performed log earlier).GrowsInto (LoggedCall.performed log later) := by
  intro t
  have hpasses := Tailer.keptByPasses_showsAll s.settings
  refine ⟨?_, ?_, ?_, ?_, fun later _ earlier hle => MemoryLog.growsInto_performed hlog hle⟩
  · intro htailing
    have hshown : t.worker.log.ShowsAll := (tailing_kept hpasses hlog htailing).2
    exact ⟨hshown, hpasses t.worker hshown, hpasses.round hshown⟩
  · intro hstopped
    obtain ⟨k, hin, hout, hk⟩ := exists_left_of_stopped hstopped
    obtain ⟨reason, -, -, hreleased, -⟩ := released_of_left hin hout
    have hshows : ∃ seen, (started s log arrivals (k + 1)).worker.log.Shows seen :=
      after_kept Tailer.keptByCalls_shows ⟨_, MemoryLog.showsAll_iff.mp hlog⟩ (k + 1)
    rw [show t = _ from hreleased n hk]
    exact Tailer.release_showsAll hshows s
  · exact (started_calls s log arrivals n 0).2.eq_performed
  · intro m hm
    obtain ⟨k, rfl⟩ := Nat.exists_eq_add_of_le hm
    exact (started_calls s log arrivals m k).1

/-- Behind two frames a header names no stream, and the second ends in half a character.  Readers
see the text of both frames when the task leaves its loop, and what stands for the character when
the task has stopped. -/
theorem started_showsAll_of_bad_header :
    let s : Surroundings := ⟨⟨10, 5, 20, false⟩, fun _ _ => true, none, .strict⟩
    let arrivals : List Arrival := [⟨0, .bytes [1, 0, 0, 0, 0, 0, 0, 1, 104]⟩,
      ⟨3, .bytes [1, 0, 0, 0, 0, 0, 0, 2, 105, 195]⟩, ⟨4, .bytes [9, 0, 0, 0, 0, 0, 0, 0]⟩]
    let start := started s MemoryLog.new arrivals 0
    let stopped := started s MemoryLog.new arrivals (1 + Chore.all.length)
    (start.worker.round s).1 = some (.failed (.demux (.unknownStream 9))) ∧
      (start.worker.round s).2.log.flushedContents? = some ['h', 'i'] ∧
      stopped.phase = .stopped ∧
      stopped.worker.log.flushedContents? = some ['h', 'i', '\uFFFD'] := by
  intro s arrivals start stopped
  have hround : ((start.worker.round s).1, (start.worker.round s).2.log.contents) =
      (some (.failed (.demux (.unknownStream 9))), ['h', 'i']) := by decide +kernel
  have hstopped : (stopped.phase, stopped.worker.log.contents) =
      (.stopped, ['h', 'i', '\uFFFD']) := by decide +kernel
  obtain ⟨hreason, hread⟩ := Prod.mk.inj hround
  obtain ⟨hphase, hcontents⟩ := Prod.mk.inj hstopped
  have hstart := (started_showsAll MemoryLog.showsAll_new s arrivals 0).1
  have hend := (started_showsAll MemoryLog.showsAll_new s arrivals (1 + Chore.all.length)).2.1
  refine ⟨hreason, ?_, hphase, ?_⟩
  · rw [← hread]
    exact (hstart rfl).2.2
  · rw [← hcontents]
    exact hend hphase

end Task

end BuildStep
