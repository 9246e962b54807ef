import BuildStep.Proofs.Tail.StopReason
import BuildStep.Proofs.Tail.Timetable

/-!
# What comes before a stop is in the log

A tailer that is asked to stop, or sees that the build is over, makes one more pass.  This pass may
take only so long, and it gives up when nothing comes for a while; but time stands still as long as
there is anything to read, so all frames that could be read when the tailer decided to stop are
taken before the time can run out.

## Key results

- `Ahead.await_readable`: a wait goes on only if no frame can be read at once
- `takeFrames_caught`, `pass_caught`: a pass takes all frames that can be read when it begins
- `readable_of_run`: what could be read at the time of a stop is in the log
-/

namespace BuildStep

namespace Tailer

/-! ## Waiting while frames can be read -/

theorem frames_readable (time : Nat) (arrivals : List Arrival) :
    Wire.frames (Arrival.course (readable time arrivals)).bytes <+:
      Wire.frames (Arrival.course arrivals).bytes := by
  have hsplit : readable time arrivals ++ arrivals.dropWhile (fun a => a.time ≤ time) = arrivals :=
    List.takeWhile_append_dropWhile
  have hcourse := Reply.course_append ((readable time arrivals).map Arrival.reply)
    ((arrivals.dropWhile fun a => a.time ≤ time).map Arrival.reply)
  rw [← List.map_append, hsplit] at hcourse
  rw [Arrival.course, Arrival.course, hcourse]
  exact Course.frames_followedBy _ _

variable {σ : Type} {arrivals : List Arrival} {taken : List Frame} {w w' : Tailer σ}
  {time patience : Nat}

/-- Frames ahead that could be read by some time. -/
def framesBy (time : Nat) (w : Tailer σ) : List Frame :=
  Wire.frames (w.demux.course ((readable time w.coming).map Arrival.reply)).bytes

/-- All frames that could be read by some time are those that were taken and those ahead. -/
theorem Ahead.frames_by (h : Ahead arrivals taken w) (htime : w.now ≤ time) :
    Wire.frames (Arrival.course (readable time arrivals)).bytes = taken ++ w.framesBy time := by
  obtain ⟨fed, harrivals, htimes, hrest⟩ := h.fed
  have hfed : ∀ a ∈ fed, a.time ≤ time := fun a ha => Nat.le_trans (htimes a ha) htime
  rw [harrivals, readable_append hfed, Arrival.course, List.map_append]
  exact (hrest _).frames

/-- A wait takes the next frame that can be read at once, and time stands still for that. -/
theorem Ahead.await_readable {answer : Answer} (h : Ahead arrivals taken w) (hnow : w.now = time)
    (hawait : w.await patience = (answer, w')) :
    (∃ f, answer = .frame f ∧ w'.now = time) ∨ w.framesBy time = [] := by
  cases hframes : w.framesBy time with
  | nil => exact .inr rfl
  | cons f rest =>
    left
    subst hnow
    -- the first of these frames can be told, and so is taken at once
    have htold : (tellable w.demux w.coming w.now).head? = some (.frame f) := by
      rw [tellable, Course.items, show Wire.frames _ = f :: rest from hframes]
      rfl
    obtain ⟨-, rfl, hstill⟩ := h.await_told htold hawait
    exact ⟨f, rfl, hstill⟩

/-- All frames that could be read by some time were counted, or it is still this time. -/
def CaughtUp (arrivals : List Arrival) (time : Nat) (w : Tailer σ) : Prop :=
  (Wire.frames (Arrival.course (readable time arrivals)).bytes).length ≤ w.frames ∨ w.now = time

/-- Waiting for a frame does not go beyond this time unless all of these frames were counted. -/
theorem CaughtUp.await {answer : Answer} (h : CaughtUp arrivals time w)
    (hahead : Ahead arrivals taken w) (haccounted : Accounted taken w)
    (hawait : w.await patience = (answer, w')) :
    (∃ f, answer = .frame f ∧ w'.now = time) ∨
      (Wire.frames (Arrival.course (readable time arrivals)).bytes).length ≤ w.frames := by
  rcases h with hcounted | hnow
  · exact .inr hcounted
  · rcases hahead.await_readable hnow hawait with hframe | hnone
    · exact .inl hframe
    · right
      rw [hahead.frames_by (Nat.le_of_eq hnow), hnone, List.append_nil]
      exact Nat.le_of_eq haccounted.frames.symm

/-! ## The last pass -/

variable [LogSink σ]

/-- A pass that does not fail counts as many frames as could be read when it began. -/
theorem takeFrames_caught (hahead : Ahead arrivals taken w) (haccounted : Accounted taken w)
    (hcaught : CaughtUp arrivals time w) {c : Settings} (hpoll : 0 < c.pollInterval) (any : Bool)
    (hending : ∀ e, (takeFrames c time any w).1 ≠ .failed e) :
    (Wire.frames (Arrival.course (readable time arrivals)).bytes).length ≤
      (takeFrames c time any w).2.2.frames := by
  fun_induction takeFrames c time any w generalizing taken with
  | case1 any w hover =>
    rcases hcaught with hcounted | hnow
    · exact hcounted
    · -- time has not moved since the pass began
      omega
  | case2 any w hover w' hawait =>
    rcases hcaught.await hahead haccounted hawait with ⟨f, hf, -⟩ | hcounted
    · cases hf
    · rw [(await_eq hawait).1]
      exact hcounted
  | case3 any w hover w' hawait =>
    rcases hcaught.await hahead haccounted hawait with ⟨f, hf, -⟩ | hcounted
    · cases hf
    · rw [(await_eq hawait).1]
      exact hcounted
  | case4 any w hover e w' hawait => exact absurd rfl (hending _)
  | case5 any w hover f waited hawait e w' hdeliver => exact absurd rfl (hending _)
  | case6 any w hover f waited hawait delivered hdeliver ih =>
    have hahead' := hahead.await_frame hawait
    rcases deliver_accounted (haccounted.await hawait) f with
      ⟨w'', hok, hdelivered, hdemux, hcoming, hnow'⟩ | ⟨e', w'', hfails, -⟩
    · rw [hdeliver] at hok
      cases hok
      refine ih (hahead'.later hdemux hcoming (Nat.le_of_eq hnow'.symm)) hdelivered ?_ hending
      rcases hcaught.await hahead haccounted hawait with ⟨f', -, hstill⟩ | hcounted
      · exact .inr (hnow'.trans hstill)
      · left
        rw [hdelivered.frames, List.length_append, ← haccounted.frames]
        exact Nat.le_add_right_of_le hcounted
    · rw [hdeliver] at hfails
      cases hfails

omit [LogSink σ] in
/-- A pass that does not fail has taken some of the first frames of the stream, and flushed
them. -/
theorem Taken.exists_taken {ending : PassEnd} (h : Taken arrivals false ending w)
    (hending : ∀ e, ending ≠ .failed e) :
    ∃ taken, Accounted taken w ∧ w.Clean ∧
      taken <+: Wire.frames (Arrival.course arrivals).bytes := by
  cases h with
  | idle ahead accounted clean =>
    exact ⟨_, accounted, clean rfl, ⟨_, ahead.frames_eq⟩⟩
  | ended _ _ accounted clean => exact ⟨_, accounted, clean rfl, List.prefix_refl _⟩
  | demux => exact absurd rfl (hending _)
  | log => exact absurd rfl (hending _)

/-- A pass that does not fail has taken, and flushed, all frames that could be read when it
began. -/
theorem pass_caught (h : Between arrivals taken w) {c : Settings} (hpoll : 0 < c.pollInterval)
    (hending : ∀ e, (w.pass c).1 ≠ .failed e) :
    ∃ taken', Accounted taken' (w.pass c).2 ∧ (w.pass c).2.Clean ∧
      Wire.frames (Arrival.course (readable w.now arrivals)).bytes <+: taken' ∧
      taken' <+: Wire.frames (Arrival.course arrivals).bytes := by
  obtain ⟨taken', haccounted, hclean, htaken⟩ :=
    (pass_taken h.ahead h.accounted h.clean c).exists_taken hending
  refine ⟨taken', haccounted, hclean, ?_, htaken⟩
  obtain ⟨-, hframes, hsame⟩ := pass_cases w c
  have htakes : ∀ e, (takeFrames c w.now false w).1 ≠ .failed e := by
    intro e he
    rcases hsame with hsame | ⟨e', hflush⟩
    · exact hending e (hsame.trans he)
    · exact hending _ hflush
  have hcaught := takeFrames_caught h.ahead h.accounted (.inr rfl) hpoll false htakes
  -- both are beginnings of the stream, so only the number of frames matters
  refine List.prefix_of_prefix_length_le (frames_readable w.now arrivals) htaken ?_
  rw [← haccounted.frames, hframes]
  exact hcaught

/-- A tailer that gives one of these reasons in the end had it before its last pass, which did not
fail. -/
theorem exists_lastPass {log : σ} {s : Surroundings} {allowed : Nat} {reason : StopReason}
    {w : Tailer σ} (hrun : (new log arrivals).run s allowed = some (reason, w))
    (hreason : reason = .requested ∨ reason = .buildFinished) :
    ∃ first taken, (new log arrivals).firstStop s allowed = some (reason, first) ∧
      Between arrivals taken first ∧ (∀ e, (first.pass s.settings).1 ≠ .failed e) ∧
      Recorded log (first.pass s.settings).2 ∧ w = (first.pass s.settings).2.release s := by
  obtain ⟨seen, first, last, hfirst, hsighted, hconclude, hrecorded, rfl⟩ := run_firstStop hrun
  obtain ⟨-, hpass, hnone⟩ := conclude_justified hsighted
  rw [hconclude] at hpass hnone
  -- any other first reason is the one that is given
  have hseen : seen = .requested ∨ seen = .buildFinished := by
    by_contra hother
    obtain ⟨hrequested, hbuild⟩ := not_or.mp hother
    cases hnone hrequested hbuild
    exact hother hreason
  obtain ⟨hlast, hfailed, hsame⟩ := hpass hseen
  have hending : ∀ e, (first.pass s.settings).1 ≠ .failed e := by
    intro e he
    cases hfailed e he
    rcases hreason with h | h <;> cases h
  obtain ⟨taken, hbetween⟩ : ∃ taken, Between arrivals taken first := by
    cases hsighted with
    | requested between => exact ⟨_, between⟩
    | buildFinished between => exact ⟨_, between⟩
    | endOfStream => rcases hseen with h | h <;> cases h
    | failed => rcases hseen with h | h <;> cases h
  cases hsame hending
  cases hlast
  exact ⟨first, taken, hfirst, hbetween, hending, hrecorded, rfl⟩

/-- A run that stops for `requested` or `buildFinished` has taken all frames that were `readable` at
`firstStop`, and has appended and flushed their `Capture.completeText`. -/
theorem readable_of_run {log : σ} {s : Surroundings} {allowed : Nat} {reason : StopReason}
    {w : Tailer σ} (hcheck : s.settings.check = none)
    (hrun : (new log arrivals).run s allowed = some (reason, w))
    (hreason : reason = .requested ∨ reason = .buildFinished) :
    ∃ first last taken, (new log arrivals).firstStop s allowed = some (reason, first) ∧
      last = (first.pass s.settings).2 ∧ w = last.release s ∧
      Wire.frames (Arrival.course (readable first.now arrivals)).bytes <+: taken ∧
      taken <+: Wire.frames (Arrival.course arrivals).bytes ∧
      w.frames = taken.length ∧ w.bytes = Capture.payloadSize taken ∧
      LoggedCall.flushed last.calls = Capture.completeText taken ∧ last.calls <:+ w.calls ∧
      ∀ contents : σ → Text, LogSink.Faithful contents →
        contents last.log = contents log ++ Capture.completeText taken ∧
          ((∀ c ∈ w.calls, c.succeeded = true) →
            contents w.log = contents log ++ Capture.logText taken) := by
  obtain ⟨first, before, hfirst, hbetween, hending, hrecorded, rfl⟩ :=
    exists_lastPass hrun hreason
  -- a pass that may take no time at all would take nothing
  have hpoll : 0 < s.settings.pollInterval := by
    obtain ⟨-, hidle, -⟩ := (Settings.check_eq_none_iff s.settings).mp hcheck
    exact Nat.zero_lt_of_lt hidle
  obtain ⟨taken, haccounted, hclean, hcaught, htaken⟩ := pass_caught hbetween hpoll hending
  obtain ⟨hcalls, hframes, hbytes, happended⟩ :=
    release_calls (first.pass s.settings).2 s
  refine ⟨first, _, taken, hfirst, rfl, rfl, hcaught, htaken, hframes.trans haccounted.frames,
    hbytes.trans haccounted.bytes, hclean.trans haccounted.appended, hcalls, ?_⟩
  intro contents hfaithful
  constructor
  · rw [hrecorded.contents_eq hfaithful haccounted.succeeded, haccounted.appended]
  · intro hall
    rw [(hrecorded.release s).contents_eq hfaithful hall, happended taken haccounted hall]

/-- A frame whose second part comes between two passes, and one that comes as the tailer is asked to
stop, are both taken; what comes later is not. -/
theorem readable_of_run_of_split_frame :
    let s : Surroundings := ⟨⟨10, 5, 10, true⟩, fun _ _ => true, some 7, .strict⟩
    let arrivals : List Arrival := [⟨0, .bytes [1, 0, 0, 0, 0, 0, 0, 2, 104]⟩,
      ⟨6, .bytes [105, 2, 0, 0]⟩, ⟨7, .bytes [0, 0, 0, 0, 1, 33]⟩,
      ⟨20, .bytes [1, 0, 0, 0, 0, 0, 0, 1, 63]⟩]
    ∃ (first last w : Tailer MemoryLog) (taken : List Frame),
      (new MemoryLog.new arrivals).run s 5 = some (.requested, w) ∧ first.now = 7 ∧
      Wire.frames (Arrival.course (readable 7 arrivals)).bytes <+: taken ∧
      (Wire.frames (Arrival.course (readable 7 arrivals)).bytes).length = 2 ∧
      w.frames = 2 ∧ taken.length = 2 ∧ last = (first.pass s.settings).2 ∧
      last.log.contents = Capture.completeText taken := by
  intro s arrivals
  have hruns : ((new MemoryLog.new arrivals).run s 5).map (fun stopped =>
      (stopped.1, stopped.2.frames)) = some (.requested, 2) := by decide +kernel
  have hstops : ((new MemoryLog.new arrivals).firstStop s 5).map (fun stop => stop.2.now) =
      some 7 := by decide +kernel
  have hcheck : s.settings.check = none := by decide
  obtain ⟨⟨reason, w⟩, hrun, hstopped⟩ := Option.map_eq_some_iff.mp hruns
  obtain ⟨rfl, hcount⟩ := Prod.mk.inj hstopped
  obtain ⟨first, last, taken, hfirst, hlast, -, hcaught, -, hframes, -, -, -, hcontents⟩ :=
    readable_of_run hcheck hrun (.inl rfl)
  rw [hfirst, Option.map_some, Option.some.injEq] at hstops
  rw [hstops] at hcaught
  refine ⟨first, last, w, taken, hrun, hstops, hcaught, by decide +kernel, hcount,
    hframes.symm.trans hcount, hlast, ?_⟩
  exact (hcontents MemoryLog.contents MemoryLog.faithful).1

end Tailer

end BuildStep
