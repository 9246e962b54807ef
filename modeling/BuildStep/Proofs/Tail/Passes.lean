import BuildStep.Proofs.Tail.Ahead
import BuildStep.Proofs.Tail.Calls
import BuildStep.Proofs.Tail.LogText

/-!
# What a pass leaves behind, on any log

A log may refuse any call.  What a tailer has done to it shows in the calls that were made: the
texts of those that succeeded, in order, and how much of that was there at the last flush that
succeeded.  A pass that ends well has appended and flushed the text of all frames that were taken.
One that fails says whether it was the stream that failed, behind all of its frames, or the
log, and then nothing was taken after the call that failed.

## Key results

- `deliver_accounted`: a frame that is delivered is accounted for, or refused
- `takeFrames_taken`, `pass_taken`: the ways in which a pass ends
- `pass_cases`: what the flush at its end may change about that
-/

namespace BuildStep

/-- The text that is complete once some frames were read. -/
def Capture.completeText (frames : List Frame) : Text :=
  (texts .new frames).1.flatMap StreamText.text

namespace Tailer

variable {σ : Type} {arrivals : List Arrival} {taken : List Frame} {w w' : Tailer σ}

/-! ## Frames that are accounted for -/

/-- The counters, the decoder and the calls are what some frames make of them, and no call has
failed. -/
structure Accounted (taken : List Frame) (w : Tailer σ) : Prop where
  frames : w.frames = taken.length
  bytes : w.bytes = Capture.payloadSize taken
  decoder : w.decoder = (Capture.texts .new taken).2
  succeeded : ∀ c ∈ w.calls, c.succeeded = true
  appended : LoggedCall.appended w.calls = Capture.completeText taken

/-- All that was appended was flushed. -/
def Clean (w : Tailer σ) : Prop :=
  LoggedCall.flushed w.calls = LoggedCall.appended w.calls

theorem Accounted.of_eq (h : Accounted taken w) (hframes : w'.frames = w.frames)
    (hbytes : w'.bytes = w.bytes) (hdecoder : w'.decoder = w.decoder) (hcalls : w'.calls = w.calls) :
    Accounted taken w' where
  frames := hframes ▸ h.frames
  bytes := hbytes ▸ h.bytes
  decoder := hdecoder ▸ h.decoder
  succeeded := hcalls ▸ h.succeeded
  appended := hcalls ▸ h.appended

theorem accounted_new (log : σ) (arrivals : List Arrival) : Accounted [] (new log arrivals) :=
  ⟨rfl, rfl, rfl, by simp [new], rfl⟩

/-- Waiting leaves everything behind the tailer as it is. -/
theorem await_eq {patience : Nat} {answer : Answer} (h : w.await patience = (answer, w')) :
    w'.frames = w.frames ∧ w'.bytes = w.bytes ∧ w'.decoder = w.decoder ∧ w'.calls = w.calls := by
  cases h
  exact ⟨rfl, rfl, rfl, rfl⟩

theorem Accounted.await {patience : Nat} {answer : Answer} (h : Accounted taken w)
    (hawait : w.await patience = (answer, w')) : Accounted taken w' := by
  obtain ⟨hframes, hbytes, hdecoder, hcalls⟩ := await_eq hawait
  exact h.of_eq hframes hbytes hdecoder hcalls

theorem Clean.of_eq (h : w.Clean) (hcalls : w'.calls = w.calls) : w'.Clean := by
  rw [Clean, hcalls]
  exact h

theorem completeText_concat (taken : List Frame) (f : Frame) :
    Capture.completeText (taken ++ [f]) = Capture.completeText taken ++
      ((Capture.texts .new taken).2.decode f.stream f.payload).1 := by
  rw [Capture.completeText, Capture.texts_append, List.flatMap_append]
  exact congrArg _ (List.append_nil _)

theorem decoder_concat (taken : List Frame) (f : Frame) :
    (Capture.texts .new (taken ++ [f])).2 =
      ((Capture.texts .new taken).2.decode f.stream f.payload).2 := by
  rw [Capture.texts_append]
  rfl

/-! ## The ways in which a pass may end -/

/-- The frames that a tailer may still read. -/
def unread (w : Tailer σ) : List Frame :=
  if w.demux.finished then [] else w.ahead

/-- A call that may fail once some frames are accounted for, and the frames that were read and are
not counted if it does: a flush, or the call that appends what the next frame completes. -/
inductive CallAfter (taken : List Frame) : List Frame → LogCall → Prop
  | flush : CallAfter taken [] .flush
  | append (f : Frame) : CallAfter taken [f]
      (.append ((Capture.texts .new taken).2.decode f.stream f.payload).1)

/-- A call on the log has failed.  All calls before it had succeeded, only flushes came after it,
and nothing was read any more. -/
structure Refused (arrivals : List Arrival) (taken refused : List Frame) (w : Tailer σ) : Prop where
  calls : ∃ late c early, w.calls = late ++ c :: early ∧ c.succeeded = false ∧
    CallAfter taken refused c.call ∧ (∀ c' ∈ late, c'.call = .flush) ∧
    (∀ c' ∈ early, c'.succeeded = true) ∧
    LoggedCall.appended early = Capture.completeText taken
  frames : w.frames = taken.length
  bytes : w.bytes = Capture.payloadSize taken
  unread : taken ++ refused ++ w.unread = Wire.frames (Arrival.course arrivals).bytes

/-- The answer that a reader gives behind all frames of a stream. -/
def lastAnswer (arrivals : List Arrival) : Answer :=
  Wire.verdict (Arrival.course arrivals).outcome (Wire.leftover (Arrival.course arrivals).bytes)

/-- How frames were taken: on the way to the next pass, or up to the last frame of the stream, or up
to a call that failed.  If any frame was taken since the last flush, `any` says so. -/
inductive Taken (arrivals : List Arrival) (any : Bool) : PassEnd → Tailer σ → Prop
  | idle {taken : List Frame} {w : Tailer σ} (ahead : Ahead arrivals taken w)
    (accounted : Accounted taken w) (clean : any = false → w.Clean) : Taken arrivals any .idle w
  | ended {w : Tailer σ} (verdict : lastAnswer arrivals = .ended)
    (finished : w.demux.finished = true)
    (accounted : Accounted (Wire.frames (Arrival.course arrivals).bytes) w)
    (clean : any = false → w.Clean) : Taken arrivals any .endOfStream w
  | demux {e : DemuxError} {w : Tailer σ} (verdict : lastAnswer arrivals = .error e)
    (finished : w.demux.finished = true)
    (accounted : Accounted (Wire.frames (Arrival.course arrivals).bytes) w)
    (clean : any = false → w.Clean) : Taken arrivals any (.failed (.demux e)) w
  | log {e : IoError} {taken refused : List Frame} {w : Tailer σ}
    (refused : Refused arrivals taken refused w) :
    Taken arrivals any (.failed (.log e)) w

theorem Ahead.unread_eq (h : Ahead arrivals taken w) : w.unread = w.ahead := by
  rw [unread, h.isOpen.unfinished]
  rfl

/-- A flush that fails after all other calls had succeeded. -/
theorem Accounted.refused_flush {log : σ} {unread : List Frame} (h : Accounted taken w)
    (hunread : w.unread = unread)
    (hframes : taken ++ unread = Wire.frames (Arrival.course arrivals).bytes) :
    Refused arrivals taken []
      { w with log := log, calls := ⟨w.now, .flush, false⟩ :: w.calls } where
  calls := ⟨[], _, w.calls, rfl, rfl, .flush, by simp, h.succeeded, h.appended⟩
  frames := h.frames
  bytes := h.bytes
  unread := by
    rw [List.append_nil, ← hframes, ← hunread]
    rfl

/-- One more flush changes nothing about a call that has failed. -/
theorem Refused.flush {refused : List Frame} {log : σ} {succeeded : Bool}
    (h : Refused arrivals taken refused w) :
    Refused arrivals taken refused
      { w with log := log, calls := ⟨w.now, .flush, succeeded⟩ :: w.calls } := by
  obtain ⟨⟨late, c, early, hcalls, hfailed, hcall, hlate, hearly⟩, hframes, hbytes, hunread⟩ := h
  refine ⟨⟨⟨w.now, .flush, succeeded⟩ :: late, c, early, ?_, hfailed, hcall, ?_, hearly⟩, hframes,
    hbytes, hunread⟩
  · rw [List.cons_append, ← hcalls]
  · exact List.forall_mem_cons.mpr ⟨rfl, hlate⟩

/-- A flush that succeeds adds no text, and flushes all there is. -/
theorem Accounted.flush (h : Accounted taken w) (log : σ) :
    Accounted taken { w with log := log, calls := ⟨w.now, .flush, true⟩ :: w.calls } ∧
      Clean { w with log := log, calls := ⟨w.now, .flush, true⟩ :: w.calls } := by
  have happended : LoggedCall.appended (⟨w.now, .flush, true⟩ :: w.calls) =
      LoggedCall.appended w.calls := List.append_nil _
  refine ⟨⟨h.frames, h.bytes, h.decoder, ?_, happended.trans h.appended⟩, happended.symm⟩
  exact List.forall_mem_cons.mpr ⟨rfl, h.succeeded⟩

variable [LogSink σ]

/-! ## Calls on the log -/

theorem calls_call (w : Tailer σ) (c : LogCall) :
    (w.call c).2.calls = ⟨w.now, c, (c.perform w.log).1.isOk⟩ :: w.calls := rfl

/-- Appending text either succeeds and adds it, or is a call that fails. -/
theorem appendText_cases (w : Tailer σ) (t : Text) :
    ∃ result log calls, w.appendText t = (result, { w with log := log, calls := calls }) ∧
      ((result = .ok () ∧ LoggedCall.appended calls = LoggedCall.appended w.calls ++ t ∧
          w.calls <:+ calls ∧ ((∀ c ∈ w.calls, c.succeeded = true) → ∀ c ∈ calls, c.succeeded = true)) ∨
        (∃ e, result = .error e ∧ calls = ⟨w.now, .append t, false⟩ :: w.calls)) := by
  by_cases ht : t.isEmpty = true
  · refine ⟨.ok (), w.log, w.calls, by rw [appendText, if_pos ht], .inl ⟨rfl, ?_, List.suffix_refl _, fun h => h⟩⟩
    rw [List.isEmpty_iff.mp ht, List.append_nil]
  · refine ⟨(LogSink.append w.log t).1, (LogSink.append w.log t).2,
      ⟨w.now, .append t, (LogSink.append w.log t).1.isOk⟩ :: w.calls, ?_, ?_⟩
    · rw [appendText, if_neg ht]
      rfl
    · cases hresult : (LogSink.append w.log t).1 with
      | ok _ =>
        refine .inl ⟨rfl, rfl, List.suffix_cons _ _, fun h => ?_⟩
        exact List.forall_mem_cons.mpr ⟨rfl, h⟩
      | error e => exact .inr ⟨e, rfl, rfl⟩

/-- A frame that is delivered is accounted for; one that the log refuses is not counted, and the
call that failed was the last. -/
theorem deliver_accounted (h : Accounted taken w) (f : Frame) :
    (∃ w', w.deliver f = (.ok (), w') ∧ Accounted (taken ++ [f]) w' ∧ w'.demux = w.demux ∧
        w'.coming = w.coming ∧ w'.now = w.now) ∨
      ∃ e w', w.deliver f = (.error e, w') ∧ w'.frames = w.frames ∧ w'.bytes = w.bytes ∧
        (∃ c, w'.calls = c :: w.calls ∧ c.succeeded = false ∧ CallAfter taken [f] c.call) ∧
        w'.demux = w.demux ∧ w'.coming = w.coming := by
  obtain ⟨result, log, calls, happend, hcases⟩ := appendText_cases
    { w with decoder := (w.decoder.decode f.stream f.payload).2 }
    (w.decoder.decode f.stream f.payload).1
  -- the decoder goes on in either case; only the counters wait for the log
  rcases hcases with ⟨rfl, happended, -, hsucceeded⟩ | ⟨e, rfl, rfl⟩
  · left
    have hdeliver : w.deliver f = (.ok (), Tailer.count { w with
        decoder := (w.decoder.decode f.stream f.payload).2, log := log, calls := calls } f) := by
      simp only [deliver, happend]
    refine ⟨_, hdeliver, ⟨?_, ?_, ?_, hsucceeded h.succeeded, ?_⟩, rfl, rfl, rfl⟩
    · show w.frames + 1 = _
      rw [h.frames, List.length_append, List.length_singleton]
    · show w.bytes + f.payload.length = _
      rw [h.bytes, Capture.payloadSize_append]
      rfl
    · rw [decoder_concat, ← h.decoder]
      rfl
    · rw [completeText_concat, ← h.decoder, ← h.appended]
      exact happended
  · right
    have hdeliver : w.deliver f = (.error e, { w with
        decoder := (w.decoder.decode f.stream f.payload).2, log := log,
        calls := ⟨w.now, .append (w.decoder.decode f.stream f.payload).1, false⟩ :: w.calls }) := by
      simp only [deliver, happend]
    refine ⟨e, _, hdeliver, rfl, rfl, ⟨_, rfl, rfl, ?_⟩, rfl, rfl⟩
    rw [h.decoder]
    exact .append f

/-- Flushing makes a call and changes nothing else but the log. -/
theorem flush_cases (w : Tailer σ) :
    ∃ result log, w.call .flush = (result, { w with
        log := log, calls := ⟨w.now, .flush, result.isOk⟩ :: w.calls }) :=
  ⟨(LogSink.flush w.log).1, (LogSink.flush w.log).2, rfl⟩

/-! ## How a pass ends -/

/-- A pass takes frames until there is one of these reasons to end it. -/
theorem takeFrames_taken (hahead : Ahead arrivals taken w) (haccounted : Accounted taken w)
    (any : Bool) (hclean : any = false → w.Clean) (c : Settings) (started : Nat) :
    Taken arrivals (takeFrames c started any w).2.1 (takeFrames c started any w).1
      (takeFrames c started any w).2.2 := by
  fun_induction takeFrames c started any w generalizing taken with
  | case1 any w hover => exact .idle hahead haccounted hclean
  | case2 any w hover w' hawait =>
    have hcalls := (await_eq hawait).2.2.2
    exact .idle (hahead.await_notReady hawait) (haccounted.await hawait)
      fun hany => (hclean hany).of_eq hcalls
  | case3 any w hover w' hawait =>
    have hcalls := (await_eq hawait).2.2.2
    obtain ⟨rfl, hverdict, hfinished⟩ := hahead.await_last hawait (by simp) (by simp)
    exact .ended hverdict.symm hfinished (haccounted.await hawait)
      fun hany => (hclean hany).of_eq hcalls
  | case4 any w hover e w' hawait =>
    have hcalls := (await_eq hawait).2.2.2
    obtain ⟨rfl, hverdict, hfinished⟩ := hahead.await_last hawait (by simp) (by simp)
    exact .demux hverdict.symm hfinished (haccounted.await hawait)
      fun hany => (hclean hany).of_eq hcalls
  | case5 any w hover f waited hawait e w' hdeliver =>
    -- the frame was read, and is not counted
    have hahead' := hahead.await_frame hawait
    have haccounted' := haccounted.await hawait
    rcases deliver_accounted haccounted' f with ⟨w'', hok, -⟩ | ⟨e', w'', hfails, h⟩
    · rw [hdeliver] at hok
      cases hok
    · rw [hdeliver] at hfails
      cases hfails
      obtain ⟨hframes, hbytes, ⟨c', hcalls, hfailed, hcall⟩, hdemux, hcoming⟩ := h
      have hunread : w'.unread = waited.ahead := by
        rw [← hahead'.unread_eq, unread, unread, ahead, ahead, replies, replies, hdemux, hcoming]
      refine .log ⟨⟨[], c', waited.calls, hcalls, hfailed, hcall, by simp,
        haccounted'.succeeded, haccounted'.appended⟩, hframes.trans haccounted'.frames,
        hbytes.trans haccounted'.bytes, ?_⟩
      rw [hunread]
      exact hahead'.frames_eq
  | case6 any w hover f waited hawait delivered hdeliver ih =>
    -- the frame was read and is counted; it is not flushed yet
    have hahead' := hahead.await_frame hawait
    have haccounted' := haccounted.await hawait
    rcases deliver_accounted haccounted' f with ⟨w'', hok, hdelivered, hdemux, hcoming, hnow⟩ |
      ⟨e', w'', hfails, -⟩
    · rw [hdeliver] at hok
      cases hok
      exact ih (hahead'.later hdemux hcoming (Nat.le_of_eq hnow.symm)) hdelivered (by simp)
    · rw [hdeliver] at hfails
      cases hfails

/-- The flush at the end of a pass takes no time and counts nothing, and if it fails, the pass
fails. -/
theorem pass_cases (w : Tailer σ) (c : Settings) :
    (w.pass c).2.now = (takeFrames c w.now false w).2.2.now ∧
      (w.pass c).2.frames = (takeFrames c w.now false w).2.2.frames ∧
      ((w.pass c).1 = (takeFrames c w.now false w).1 ∨ ∃ e, (w.pass c).1 = .failed (.log e)) := by
  unfold pass
  generalize takeFrames c w.now false w = taking
  obtain ⟨ending, any, w₁⟩ := taking
  cases any with
  | false => exact ⟨rfl, rfl, .inl rfl⟩
  | true =>
    obtain ⟨result, log, hflush⟩ := flush_cases w₁
    dsimp only
    rw [hflush]
    cases result with
    | ok _ => exact ⟨rfl, rfl, .inl rfl⟩
    | error e => exact ⟨rfl, rfl, .inr ⟨e, rfl⟩⟩

/-- Once a pass is over, all that was appended was flushed, unless a call has failed. -/
theorem pass_taken (hahead : Ahead arrivals taken w) (haccounted : Accounted taken w)
    (hclean : w.Clean) (c : Settings) :
    Taken arrivals false (w.pass c).1 (w.pass c).2 := by
  have htaken := takeFrames_taken hahead haccounted false (fun _ => hclean) c w.now
  unfold pass
  generalize takeFrames c w.now false w = taking at htaken ⊢
  obtain ⟨ending, any, w₁⟩ := taking
  cases any with
  | false => exact htaken
  | true =>
    dsimp only at htaken ⊢
    obtain ⟨result, log, hflush⟩ := flush_cases w₁
    rw [hflush]
    cases result with
    | ok _ =>
      -- the flush succeeds, so what ended the pass stands
      dsimp only
      cases htaken with
      | idle ahead accounted =>
        obtain ⟨haccounted', hclean'⟩ := accounted.flush log
        exact .idle (ahead.later rfl rfl (Nat.le_refl _)) haccounted' fun _ => hclean'
      | ended verdict finished accounted =>
        obtain ⟨haccounted', hclean'⟩ := accounted.flush log
        exact .ended verdict finished haccounted' fun _ => hclean'
      | demux verdict finished accounted =>
        obtain ⟨haccounted', hclean'⟩ := accounted.flush log
        exact .demux verdict finished haccounted' fun _ => hclean'
      | log refused => exact .log refused.flush
    | error e =>
      dsimp only
      cases htaken with
      | idle ahead accounted => exact .log (accounted.refused_flush ahead.unread_eq ahead.frames_eq)
      | ended verdict finished accounted =>
        exact .log (accounted.refused_flush (if_pos finished) (List.append_nil _))
      | demux verdict finished accounted =>
        exact .log (accounted.refused_flush (if_pos finished) (List.append_nil _))
      | log refused => exact .log refused.flush

end Tailer

end BuildStep
