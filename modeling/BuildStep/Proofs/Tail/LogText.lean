import BuildStep.Log.Memory
import BuildStep.Proofs.Tail.Awaiting
import Mathlib.Data.List.Basic

/-!
# What a tailer leaves in its log

A tailer reads in passes, gives up waiting, starts again, and stops for many reasons at any time.
None of this shows in the log, except in how far the tailer got: the log has the text of the first
frames of the stream, as many as were counted, and then what the last of them left unfinished.

The invariant has two sides.  Behind the tailer, the counters, the decoder and the log are what the
frames taken so far make of them.  Ahead of it, the course of its reader has the other frames of the
stream.  Every request moves at most one frame from ahead to behind.

## Key results

- `deliver_logged`: a frame that is delivered joins those that were taken
- `takeFrames_underway`, `pass_underway`, `round_underway`: what keeps the invariant
- `log_run`: the log of a tailer that stopped
-/

namespace BuildStep

/-! ## Logs whose calls succeed -/

/-- A kind of log whose calls succeed while it is open, and the text that it holds. -/
structure LogSink.Reliable {σ : Type} [LogSink σ] (contents : σ → Text) (isOpen : σ → Prop) :
    Prop where
  append : ∀ log t, isOpen log → (LogSink.append log t).1 = .ok () ∧
    contents (LogSink.append log t).2 = contents log ++ t ∧ isOpen (LogSink.append log t).2
  flush : ∀ log, isOpen log → (LogSink.flush log).1 = .ok () ∧
    contents (LogSink.flush log).2 = contents log ∧ isOpen (LogSink.flush log).2
  finalize : ∀ log, isOpen log → (LogSink.finalize log).1 = .ok () ∧
    contents (LogSink.finalize log).2 = contents log

/-- A log in memory takes all calls until it is finalized. -/
theorem MemoryLog.reliable :
    LogSink.Reliable MemoryLog.contents (fun log : MemoryLog => log.live = true) where
  append log t hlive := by
    show (log.append t).1 = _ ∧ (log.append t).2.contents = _ ∧ (log.append t).2.live = true
    rw [MemoryLog.append, if_pos hlive]
    exact ⟨rfl, rfl, hlive⟩
  flush log hlive := ⟨rfl, rfl, hlive⟩
  finalize log hlive := by
    refine ⟨rfl, ?_⟩
    show log.finalize.contents = log.contents
    rw [MemoryLog.finalize, if_pos hlive]
    rfl

/-! ## The text of frames -/

namespace Capture

theorem texts_append (d : TextDecoder) (a b : List Frame) :
    texts d (a ++ b) = ((texts d a).1 ++ (texts (texts d a).2 b).1, (texts (texts d a).2 b).2) := by
  induction a generalizing d with
  | nil => rfl
  | cons f a ih =>
    simp only [List.cons_append, texts, ih]

/-- The lengths of the payloads of some frames, added up. -/
def payloadSize : List Frame → Nat
  | [] => 0
  | f :: frames => f.payload.length + payloadSize frames

theorem payloadSize_append (a b : List Frame) :
    payloadSize (a ++ b) = payloadSize a + payloadSize b := by
  induction a with
  | nil => exact (Nat.zero_add _).symm
  | cons f a ih =>
    rw [List.cons_append, payloadSize, payloadSize, ih]
    omega

/-- All text of some frames in the order of the wire, and then what each stream leaves
unfinished. -/
def logText (frames : List Frame) : Text :=
  (texts .new frames).1.flatMap StreamText.text ++
    StreamType.all.flatMap fun s => ((texts .new frames).2.finish s).1

end Capture

namespace Tailer

variable {σ : Type}

/-! ## Behind the tailer and ahead of it -/

section Invariant

variable {contents : σ → Text} {isOpen : σ → Prop} {before : Text}
  {frames taken : List Frame} {w : Tailer σ}

/-- Behind a tailer: the log, the counters and the decoder are what the frames taken so far make
of them. -/
structure Logged (contents : σ → Text) (isOpen : σ → Prop) (before : Text) (taken : List Frame)
    (w : Tailer σ) : Prop where
  isOpen : isOpen w.log
  frames : w.frames = taken.length
  bytes : w.bytes = Capture.payloadSize taken
  decoder : w.decoder = (Capture.texts .new taken).2
  contents : contents w.log = before ++ (Capture.texts .new taken).1.flatMap StreamText.text

/-- A tailer that stopped reading has taken the first frames of the stream. -/
def Settled (contents : σ → Text) (isOpen : σ → Prop) (before : Text) (frames : List Frame)
    (w : Tailer σ) : Prop :=
  ∃ taken, Logged contents isOpen before taken w ∧ taken <+: frames

/-- A tailer that reads has the other frames of the stream ahead. -/
def Underway (contents : σ → Text) (isOpen : σ → Prop) (before : Text) (frames : List Frame)
    (w : Tailer σ) : Prop :=
  w.demux.Reading w.replies ∧
    ∃ taken, Logged contents isOpen before taken w ∧ taken ++ w.ahead = frames

theorem Underway.settled (h : Underway contents isOpen before frames w) :
    Settled contents isOpen before frames w := by
  obtain ⟨-, taken, hlogged, hframes⟩ := h
  exact ⟨taken, hlogged, w.ahead, hframes⟩

/-- What matters of a tailer to what it has logged. -/
theorem Logged.of_eq {w' : Tailer σ} (h : Logged contents isOpen before taken w)
    (hlog : w'.log = w.log) (hframes : w'.frames = w.frames) (hbytes : w'.bytes = w.bytes)
    (hdecoder : w'.decoder = w.decoder) : Logged contents isOpen before taken w' where
  isOpen := hlog ▸ h.isOpen
  frames := hframes ▸ h.frames
  bytes := hbytes ▸ h.bytes
  decoder := hdecoder ▸ h.decoder
  contents := hlog ▸ h.contents

/-- Only the text and the state of the log matter, and not the calls that were made. -/
theorem Logged.with_log {log : σ} (h : Logged contents isOpen before taken w)
    (calls : List LoggedCall) (hcontents : contents log = contents w.log) (hopen : isOpen log) :
    Logged contents isOpen before taken { w with log := log, calls := calls } where
  isOpen := hopen
  frames := h.frames
  bytes := h.bytes
  decoder := h.decoder
  contents := hcontents.trans h.contents

/-- The time and the questions asked do not matter. -/
theorem Underway.with_time (h : Underway contents isOpen before frames w) (now checks : Nat) :
    Underway contents isOpen before frames { w with now := now, checks := checks } := by
  obtain ⟨hreading, taken, hlogged, hframes⟩ := h
  exact ⟨hreading, taken, hlogged.of_eq rfl rfl rfl rfl, hframes⟩

/-- Waiting changes nothing behind the tailer. -/
theorem Logged.await (h : Logged contents isOpen before taken w) (patience : Nat) :
    Logged contents isOpen before taken (w.await patience).2 :=
  h.of_eq rfl rfl rfl rfl

theorem Underway.await_notReady {w' : Tailer σ} {patience : Nat}
    (h : Underway contents isOpen before frames w) (hawait : w.await patience = (.notReady, w')) :
    Underway contents isOpen before frames w' := by
  obtain ⟨hreading, taken, hlogged, hframes⟩ := h
  have hlogged' := hlogged.await patience
  have hcases := await_cases hreading patience
  rw [hawait] at hlogged' hcases
  obtain ⟨f, hf, -⟩ | ⟨-, hahead, hreading'⟩ | ⟨-, hnot⟩ := hcases
  · cases hf
  · exact ⟨hreading', taken, hlogged', by rw [hahead, hframes]⟩
  · exact absurd rfl hnot

theorem Underway.await_frame {w' : Tailer σ} {patience : Nat} {f : Frame}
    (h : Underway contents isOpen before frames w) (hawait : w.await patience = (.frame f, w')) :
    w'.demux.Reading w'.replies ∧
      ∃ taken, Logged contents isOpen before taken w' ∧ taken ++ f :: w'.ahead = frames := by
  obtain ⟨hreading, taken, hlogged, hframes⟩ := h
  have hlogged' := hlogged.await patience
  have hcases := await_cases hreading patience
  rw [hawait] at hlogged' hcases
  obtain ⟨f', hf, hahead, hreading'⟩ | ⟨hnot, -⟩ | ⟨hnone, -⟩ := hcases
  · cases hf
    exact ⟨hreading', taken, hlogged', by rw [← hahead, hframes]⟩
  · cases hnot
  · exact absurd rfl (hnone f)

theorem Underway.await_settled {w' : Tailer σ} {patience : Nat} {answer : Answer}
    (h : Underway contents isOpen before frames w) (hawait : w.await patience = (answer, w')) :
    Settled contents isOpen before frames w' := by
  obtain ⟨-, taken, hlogged, hframes⟩ := h
  have hlogged' := hlogged.await patience
  rw [hawait] at hlogged'
  exact ⟨taken, hlogged', w.ahead, hframes⟩

/-! ## Calls on the log -/

variable [LogSink σ] (hsink : LogSink.Reliable contents isOpen)

include hsink

/-- Appending text changes the log and nothing else that matters. -/
theorem exists_appendText (hopen : isOpen w.log) (t : Text) :
    ∃ log calls, w.appendText t = (.ok (), { w with log := log, calls := calls }) ∧
      contents log = contents w.log ++ t ∧ isOpen log := by
  by_cases ht : t.isEmpty = true
  · refine ⟨w.log, w.calls, by rw [appendText, if_pos ht], ?_, hopen⟩
    rw [List.isEmpty_iff.mp ht, List.append_nil]
  · obtain ⟨hok, hcontents, hopen'⟩ := hsink.append w.log t hopen
    have hcall : w.appendText t = ((LogSink.append w.log t).1,
        { w with log := (LogSink.append w.log t).2,
                 calls := ⟨w.now, .append t, (LogSink.append w.log t).1.isOk⟩ :: w.calls }) := by
      rw [appendText, if_neg ht]
      rfl
    exact ⟨_, _, hok ▸ hcall, hcontents, hopen'⟩

/-- Delivering a frame appends its text and counts it. -/
theorem exists_deliver (hopen : isOpen w.log) (f : Frame) :
    ∃ log calls, w.deliver f = (.ok (), Tailer.count { w with
        decoder := (w.decoder.decode f.stream f.payload).2, log := log, calls := calls } f) ∧
      contents log = contents w.log ++ (w.decoder.decode f.stream f.payload).1 ∧ isOpen log := by
  obtain ⟨log, calls, happend, hcontents, hopen'⟩ := exists_appendText hsink
    (w := { w with decoder := (w.decoder.decode f.stream f.payload).2 }) hopen
    (w.decoder.decode f.stream f.payload).1
  exact ⟨log, calls, by simp only [deliver, happend], hcontents, hopen'⟩

/-- A frame that is delivered joins those that were taken. -/
theorem deliver_logged (h : Logged contents isOpen before taken w) (f : Frame) :
    ∃ w', w.deliver f = (.ok (), w') ∧ Logged contents isOpen before (taken ++ [f]) w' ∧
      w'.demux = w.demux ∧ w'.coming = w.coming := by
  have hdecode : Capture.texts .new (taken ++ [f]) =
      ((Capture.texts .new taken).1 ++ [⟨f.stream, (w.decoder.decode f.stream f.payload).1⟩],
        (w.decoder.decode f.stream f.payload).2) := by
    rw [Capture.texts_append, h.decoder]
    rfl
  obtain ⟨log, calls, hdeliver, hcontents, hopen⟩ := exists_deliver hsink h.isOpen f
  refine ⟨_, hdeliver, ⟨hopen, ?_, ?_, ?_, ?_⟩, rfl, rfl⟩
  · show w.frames + 1 = _
    rw [h.frames, List.length_append, List.length_singleton]
  · show w.bytes + f.payload.length = _
    rw [h.bytes, Capture.payloadSize_append]
    rfl
  · rw [hdecode]
    rfl
  · rw [hdecode, List.flatMap_append, ← List.append_assoc, ← h.contents]
    exact hcontents.trans (congrArg _ (List.append_nil _).symm)

/-! ## Passes and rounds -/

/-- A pass takes frames from ahead to behind, and stops reading only at the end of the stream or at
a failure. -/
theorem takeFrames_underway (h : Underway contents isOpen before frames w) (c : Settings)
    (started : Nat) (any : Bool) :
    Settled contents isOpen before frames (takeFrames c started any w).2.2 ∧
      ((takeFrames c started any w).1 = .idle →
        Underway contents isOpen before frames (takeFrames c started any w).2.2) := by
  fun_induction takeFrames c started any w with
  | case1 any w hover => exact ⟨h.settled, fun _ => h⟩
  | case2 any w hover w' hawait =>
    have hunderway := h.await_notReady hawait
    exact ⟨hunderway.settled, fun _ => hunderway⟩
  | case3 any w hover w' hawait =>
    -- after the end or an error nothing is read, and nothing more is claimed of what is ahead
    refine ⟨h.await_settled hawait, fun hidle => ?_⟩
    cases hidle
  | case4 any w hover e w' hawait =>
    refine ⟨h.await_settled hawait, fun hidle => ?_⟩
    cases hidle
  | case5 any w hover f waited hawait e w' hdeliver =>
    -- the log takes every frame
    obtain ⟨-, taken, hlogged, -⟩ := h.await_frame hawait
    obtain ⟨w'', hok, -⟩ := deliver_logged hsink hlogged f
    rw [hdeliver] at hok
    cases hok
  | case6 any w hover f waited hawait delivered hdeliver ih =>
    -- the frame goes from ahead of the tailer to behind it
    obtain ⟨hreading, taken, hlogged, hframes⟩ := h.await_frame hawait
    obtain ⟨w', hok, hlogged', hdemux, hcoming⟩ := deliver_logged hsink hlogged f
    rw [hdeliver] at hok
    cases hok
    refine ih ⟨?_, taken ++ [f], hlogged', ?_⟩
    · rw [replies, hdemux, hcoming]
      exact hreading
    · rw [ahead, replies, hdemux, hcoming, List.append_assoc]
      exact hframes

/-- Flushing succeeds and changes nothing that matters. -/
theorem exists_flush (hopen : isOpen w.log) :
    ∃ log, w.call .flush = (.ok (), { w with
        log := log, calls := ⟨w.now, .flush, true⟩ :: w.calls }) ∧
      contents log = contents w.log ∧ isOpen log := by
  obtain ⟨hok, hcontents, hopen'⟩ := hsink.flush w.log hopen
  refine ⟨(LogSink.flush w.log).2, ?_, hcontents, hopen'⟩
  rw [call, LogCall.perform, ← Prod.eta (LogSink.flush w.log), hok]
  rfl

/-- A pass keeps the invariant, and a pass that ends for want of time goes on reading. -/
theorem pass_underway (h : Underway contents isOpen before frames w) (c : Settings) :
    Settled contents isOpen before frames (w.pass c).2 ∧
      ((w.pass c).1 = .idle → Underway contents isOpen before frames (w.pass c).2) := by
  have htake := takeFrames_underway hsink h c w.now false
  unfold pass
  generalize takeFrames c w.now false w = taking at htake ⊢
  obtain ⟨ending, any, w'⟩ := taking
  cases any with
  | false => exact htake
  | true =>
    obtain ⟨⟨taken, hlogged, hprefix⟩, hidle⟩ := htake
    -- the flush succeeds, so what ended the pass stands
    obtain ⟨log, hflush, hcontents, hopen⟩ := exists_flush hsink hlogged.isOpen
    simp only [hflush]
    refine ⟨⟨taken, hlogged.with_log _ hcontents hopen, hprefix⟩, fun hending => ?_⟩
    obtain ⟨hreading, taken', hlogged', hframes⟩ := hidle hending
    exact ⟨hreading, taken', hlogged'.with_log _ hcontents hopen, hframes⟩

theorem lastPass_settled (h : Underway contents isOpen before frames w) (s : Surroundings)
    (reason : StopReason) : Settled contents isOpen before frames (w.lastPass s reason).2 := by
  have hpass := (pass_underway hsink h s.settings).1
  unfold lastPass
  generalize w.pass s.settings = passed at hpass ⊢
  obtain ⟨ending, w'⟩ := passed
  cases ending with
  | idle => exact hpass
  | endOfStream => exact hpass
  | failed e => exact hpass

omit hsink [LogSink σ] in
/-- Looking whether to stop changes nothing that matters. -/
theorem pendingStop_underway (h : Underway contents isOpen before frames w) (s : Surroundings) :
    Underway contents isOpen before frames (w.pendingStop s).2 := by
  unfold pendingStop
  split
  · exact h
  · exact h.with_time w.now (w.checks + 1)

/-- A round keeps the invariant; if there is no reason to stop, the tailer goes on reading. -/
theorem round_underway (h : Underway contents isOpen before frames w) (s : Surroundings) :
    Settled contents isOpen before frames (w.round s).2 ∧
      ((w.round s).1 = none → Underway contents isOpen before frames (w.round s).2) := by
  obtain ⟨hsettled, hidle⟩ := pass_underway hsink h s.settings
  unfold round
  generalize w.pass s.settings = passed at hsettled hidle ⊢
  obtain ⟨ending, w₁⟩ := passed
  -- a round follows the pass, then the two looks at whether to stop
  cases ending with
  | endOfStream => exact ⟨hsettled, fun hnone => by cases hnone⟩
  | failed e => exact ⟨hsettled, fun hnone => by cases hnone⟩
  | idle =>
    have hbefore := pendingStop_underway (hidle rfl) s
    dsimp only
    generalize w₁.pendingStop s = stop at hbefore ⊢
    obtain ⟨reason, w₂⟩ := stop
    cases reason with
    | some reason => exact ⟨lastPass_settled hsink hbefore s reason, fun hnone => by cases hnone⟩
    | none =>
      -- the wait between two passes is over
      have hafter := pendingStop_underway (hbefore.with_time (wakeTime s w₂.now) w₂.checks) s
      dsimp only
      generalize pendingStop s { w₂ with now := wakeTime s w₂.now } = stop at hafter ⊢
      obtain ⟨reason, w₃⟩ := stop
      cases reason with
      | some reason => exact ⟨lastPass_settled hsink hafter s reason, fun hnone => by cases hnone⟩
      | none => exact ⟨hafter.settled, fun _ => hafter⟩

/-- However many rounds it takes. -/
theorem rounds_settled {s : Surroundings} {allowed : Nat} {reason : StopReason} {w' : Tailer σ}
    (h : Underway contents isOpen before frames w) (hrounds : w.rounds s allowed = some (reason, w')) :
    Settled contents isOpen before frames w' := by
  induction allowed generalizing w with
  | zero => cases hrounds
  | succ n ih =>
    obtain ⟨hsettled, hgoes⟩ := round_underway hsink h s
    rw [rounds] at hrounds
    generalize w.round s = around at hsettled hgoes hrounds
    obtain ⟨stop, w₁⟩ := around
    cases stop with
    | none => exact ih (hgoes rfl) hrounds
    | some stop =>
      cases hrounds
      exact hsettled

/-! ## Release, and the whole run -/

omit hsink [LogSink σ] in
/-- What waits on other streams is not touched when one stream is finished. -/
theorem flatMap_finish {stream : StreamType} {streams : List StreamType} (h : stream ∉ streams)
    (d : TextDecoder) :
    (streams.flatMap fun other => ((d.finish stream).2.finish other).1) =
      streams.flatMap fun other => (d.finish other).1 := by
  refine List.flatMap_congr fun other hother => ?_
  have hne : other ≠ stream := by
    rintro rfl
    exact h hother
  exact congrArg Utf8.decode (TextDecoder.held_hold_of_ne d hne [])

/-- Each stream's unfinished character is appended once, in the order of the streams. -/
theorem exists_appendRests {streams : List StreamType} (hnodup : streams.Nodup)
    (hopen : isOpen w.log) :
    ∃ log calls decoder,
      w.appendRests streams = { w with log := log, calls := calls, decoder := decoder } ∧
        contents log = contents w.log ++ (streams.flatMap fun s => (w.decoder.finish s).1) ∧
        isOpen log := by
  induction streams generalizing w with
  | nil => exact ⟨w.log, w.calls, w.decoder, rfl, (List.append_nil _).symm, hopen⟩
  | cons s streams ih =>
    obtain ⟨hs, hnodup'⟩ := List.nodup_cons.mp hnodup
    obtain ⟨log, calls, happend, hcontents, hopen'⟩ := exists_appendText hsink
      (w := { w with decoder := (w.decoder.finish s).2 }) hopen (w.decoder.finish s).1
    obtain ⟨log', calls', decoder', hrests, hcontents', hopen''⟩ := ih
      (w := { w with decoder := (w.decoder.finish s).2, log := log, calls := calls }) hnodup' hopen'
    refine ⟨log', calls', decoder', ?_, ?_, hopen''⟩
    · simp only [appendRests, happend]
      exact hrests
    · rw [hcontents', flatMap_finish hs, List.flatMap_cons, ← List.append_assoc]
      exact congrArg (· ++ _) hcontents

omit hsink [LogSink σ] in
theorem releaseTransport_eq (drain : Drain) (patience : Nat) :
    (w.releaseTransport drain patience).log = w.log ∧
      (w.releaseTransport drain patience).frames = w.frames ∧
      (w.releaseTransport drain patience).bytes = w.bytes := by
  unfold releaseTransport
  split
  · exact ⟨rfl, rfl, rfl⟩
  · split
    · exact ⟨rfl, rfl, rfl⟩
    · exact ⟨rfl, rfl, rfl⟩

/-- Releasing completes the text of the frames that were taken, and counts nothing. -/
theorem release_logged (h : Logged contents isOpen before taken w) (s : Surroundings) :
    (w.release s).frames = taken.length ∧
      (w.release s).bytes = Capture.payloadSize taken ∧
      contents (w.release s).log = before ++ Capture.logText taken := by
  obtain ⟨log, calls, decoder, hrests, hcontents, hopen⟩ :=
    exists_appendRests hsink (show StreamType.all.Nodup by decide) h.isOpen
  obtain ⟨hlog, hframes, hbytes⟩ := releaseTransport_eq
    (w := { w with log := log, calls := calls, decoder := decoder }) s.drain s.settings.releaseTimeout
  rw [release, hrests]
  refine ⟨hframes.trans h.frames, hbytes.trans h.bytes, ?_⟩
  show contents (LogSink.finalize (releaseTransport _ _ _).log).2 = _
  rw [hlog, (hsink.finalize log hopen).2, hcontents, h.contents, h.decoder, Capture.logText,
    List.append_assoc]

end Invariant

theorem underway_new {σ : Type} {contents : σ → Text} {isOpen : σ → Prop} {log : σ}
    (hopen : isOpen log) (arrivals : List Arrival) :
    Underway contents isOpen (contents log) (Wire.frames (Arrival.course arrivals).bytes)
      (new log arrivals) := by
  refine ⟨⟨rfl, _, rfl, .inl rfl⟩, [], ⟨hopen, rfl, rfl, rfl, (List.append_nil _).symm⟩, ?_⟩
  rw [List.nil_append, ahead, show (new log arrivals).demux = Demux.new ⟨[], .silent⟩ from rfl,
    Demux.course_new]
  rfl

/-- A `Reliable` log gains the `Capture.logText` of the first `w.frames` frames of the stream,
whenever and why ever the tailer stops. -/
theorem log_run {σ : Type} [LogSink σ] {contents : σ → Text} {isOpen : σ → Prop}
    (hsink : LogSink.Reliable contents isOpen) (s : Surroundings) (arrivals : List Arrival)
    {log : σ} (hopen : isOpen log) {allowed : Nat} {reason : StopReason} {w : Tailer σ}
    (hrun : (new log arrivals).run s allowed = some (reason, w)) :
    let frames := Wire.frames (Arrival.course arrivals).bytes
    w.frames ≤ frames.length ∧
      w.bytes = Capture.payloadSize (frames.take w.frames) ∧
      contents w.log = contents log ++ Capture.logText (frames.take w.frames) := by
  intro frames
  rw [run, Option.map_eq_some_iff] at hrun
  obtain ⟨⟨reason', w'⟩, hrounds, heq⟩ := hrun
  cases heq
  -- the frames that were taken are as many as were counted, from the first on
  obtain ⟨taken, hlogged, hprefix⟩ := rounds_settled hsink (underway_new hopen arrivals) hrounds
  obtain ⟨hframes, hbytes, hcontents⟩ := release_logged hsink hlogged s
  have htake : frames.take (w'.release s).frames = taken := by
    rw [hframes]
    exact (List.prefix_iff_eq_take.mp hprefix).symm
  rw [htake]
  exact ⟨hframes ▸ hprefix.length_le, hbytes, hcontents⟩

/-- A character in two frames, with a gap inside the second frame that ends a pass, and one that is
never finished, until somebody asks to stop. -/
theorem log_run_of_gap :
    ∃ reason w,
      (new MemoryLog.new
        [⟨0, .bytes [1, 0, 0, 0, 0, 0, 0, 3, 104, 105, 0xC3, 1, 0, 0]⟩,
          ⟨12, .bytes [0, 0, 0, 0, 1, 0xA9]⟩,
          ⟨13, .bytes [2, 0, 0, 0, 0, 0, 0, 1, 0xE2]⟩]).run
        ⟨⟨10, 5, 10, true⟩, fun _ _ => true, some 30, .strict⟩ 5 = some (reason, w) ∧
      w.frames = 3 ∧ w.bytes = 5 ∧ w.log.contents = ['h', 'i', 'é', Utf8.replacement] := by
  have hruns : ((new MemoryLog.new
      [⟨0, .bytes [1, 0, 0, 0, 0, 0, 0, 3, 104, 105, 0xC3, 1, 0, 0]⟩,
        ⟨12, .bytes [0, 0, 0, 0, 1, 0xA9]⟩,
        ⟨13, .bytes [2, 0, 0, 0, 0, 0, 0, 1, 0xE2]⟩]).run
      ⟨⟨10, 5, 10, true⟩, fun _ _ => true, some 30, .strict⟩ 5).map (fun stopped => stopped.2.frames) =
        some 3 := by decide +kernel
  obtain ⟨⟨reason, w⟩, hrun, hframes⟩ := Option.map_eq_some_iff.mp hruns
  obtain ⟨-, hbytes, hcontents⟩ := log_run MemoryLog.reliable _ _ rfl hrun
  refine ⟨reason, w, hrun, hframes, ?_, ?_⟩
  · rw [hbytes, hframes]
    decide +kernel
  · rw [hcontents, hframes]
    decide +kernel

end Tailer

end BuildStep
