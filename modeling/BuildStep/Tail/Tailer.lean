import BuildStep.Log.Sink
import BuildStep.Settings
import BuildStep.Stream.Demux
import BuildStep.Stream.TextDecoder

/-! # Tailing a stream into a log

A tailer reads an attach stream while a build runs and appends its text to a log.  It works in
passes: a pass takes every frame that can be had without a gap of `drainIdle`, flushes the log and
ends; between passes the tailer waits `pollInterval`.  Whether it should stop is looked at only
between passes, and one last pass follows.  In the end the unfinished characters are appended, the
rest of the transport is thrown away for at most `releaseTimeout`, and the log is finalized.

Time is a number of nanoseconds since the tailer started.  It moves only while the tailer waits, and
the transport gives each of its replies from a certain time on.

* `Tailer.await` waits for the next frame, `Tailer.pass` makes a pass, `Tailer.round` a pass and
  the wait after it, `Tailer.run` everything.
* `Tailer.outstanding_await`: a frame that was awaited takes its bytes from those that were still
  to come, so a pass comes to an end. -/

namespace BuildStep

/-- A reply that the transport gives from some time on, and after the replies before it. -/
structure Arrival where
  time : Nat
  reply : Reply
deriving DecidableEq, Repr

/-- Why a tailer could not go on. -/
inductive TailError
  | demux (e : DemuxError)
  | log (e : IoError)
deriving DecidableEq, Repr

/-- The wording of the error. -/
def TailError.message : TailError → String
  | .demux e => s!"decode failed: {e.message}"
  | .log e => s!"log sink failed: {e.message}"

/-- Why a tailer stopped. -/
inductive StopReason
  /-- Somebody asked for it, or nobody is interested any more. -/
  | requested
  /-- The build is over. -/
  | buildFinished
  /-- The stream ended. -/
  | endOfStream
  /-- Reading or writing failed. -/
  | failed (e : TailError)
deriving DecidableEq, Repr

/-- The wording of the reason. -/
def StopReason.message : StopReason → String
  | .requested => "stop requested"
  | .buildFinished => "build finished"
  | .endOfStream => "end of stream"
  | .failed e => s!"failed: {e.message}"

/-- What goes on around a tailer. -/
structure Surroundings where
  settings : Settings
  /-- Whether the build is said to run, by the time and the number of times this was asked
  before. -/
  build : Nat → Nat → Bool
  /-- When the tailer is asked to stop, or its last owner lets go of it. -/
  stopAt : Option Nat
  /-- How the rest of the transport is read in the end. -/
  drain : Drain

/-- A call that a tailer made on its log. -/
structure LoggedCall where
  time : Nat
  call : LogCall
  succeeded : Bool
deriving DecidableEq, Repr

/-- A tailer at work. -/
structure Tailer (σ : Type) where
  now : Nat
  demux : Demux
  /-- Replies that the transport does not give yet. -/
  coming : List Arrival
  decoder : TextDecoder
  log : σ
  /-- Calls made on the log, last to first. -/
  calls : List LoggedCall
  /-- Frames whose text was appended. -/
  frames : Nat
  /-- Payload bytes of those frames. -/
  bytes : Nat
  /-- How often it was asked whether the build runs. -/
  checks : Nat

/-- How a pass ended. -/
inductive PassEnd
  /-- No frame came in time, or the pass took as long as it may. -/
  | idle
  | endOfStream
  | failed (e : TailError)
deriving DecidableEq, Repr

namespace Tailer

variable {σ : Type}

/-- A tailer that has done nothing yet.  The other side of its transport stays open. -/
def new (log : σ) (coming : List Arrival) : Tailer σ where
  now := 0
  demux := .new ⟨[], .silent⟩
  coming := coming
  decoder := .new
  log := log
  calls := []
  frames := 0
  bytes := 0
  checks := 0

/-- Number of bytes that arrivals bring. -/
def arriving : List Arrival → Nat
  | [] => 0
  | a :: rest => a.reply.content.length + arriving rest

/-- Number of bytes that are buffered or still to be read. -/
def outstanding (w : Tailer σ) : Nat :=
  w.demux.outstanding + arriving w.coming

/-- How a wait for the next frame ended. -/
structure Waited where
  answer : Answer
  now : Nat
  demux : Demux
  coming : List Arrival

/-- Asks for the next frame until there is an answer or the deadline has passed.  `notReady` means
that the deadline came first; what can be read at the deadline is still in time. -/
def awaitUntil (deadline : Nat) (now : Nat) (d : Demux) : List Arrival → Waited
  | [] =>
    match d.poll with
    | (answer, d) => ⟨answer, if answer.isDecided then now else deadline, d, []⟩
  | a :: rest =>
    match d.poll with
    | (answer, d) =>
      if answer.isDecided then ⟨answer, now, d, a :: rest⟩
      else if a.time ≤ deadline then
        awaitUntil deadline (max now a.time) (d.feed a.reply) rest
      else ⟨answer, deadline, d, a :: rest⟩

/-- Waits for the next frame for at most `patience`. -/
def await (patience : Nat) (w : Tailer σ) : Answer × Tailer σ :=
  let waited := awaitUntil (w.now + patience) w.now w.demux w.coming
  (waited.answer,
    { w with now := waited.now, demux := waited.demux, coming := waited.coming })

/-- Makes a call on the log. -/
def call [LogSink σ] (w : Tailer σ) (c : LogCall) : Except IoError Unit × Tailer σ :=
  match c.perform w.log with
  | (result, log) =>
    (result, { w with log := log, calls := ⟨w.now, c, result.isOk⟩ :: w.calls })

/-- Appends a text if there is any. -/
def appendText [LogSink σ] (w : Tailer σ) (t : Text) : Except IoError Unit × Tailer σ :=
  if t.isEmpty then (.ok (), w) else w.call (.append t)

/-- The tailer with one more frame counted. -/
def count (w : Tailer σ) (f : Frame) : Tailer σ :=
  { w with frames := w.frames + 1, bytes := w.bytes + f.payload.length }

/-- Appends the text that a frame completes, and counts the frame unless the log refuses it. -/
def deliver [LogSink σ] (w : Tailer σ) (f : Frame) : Except IoError Unit × Tailer σ :=
  match w.decoder.decode f.stream f.payload with
  | (text, decoder) =>
    match appendText { w with decoder := decoder } text with
    | (.error e, w) => (.error e, w)
    | (.ok (), w) => (.ok (), w.count f)

theorem outstanding_appendText [LogSink σ] (w : Tailer σ) (t : Text) :
    (w.appendText t).2.outstanding = w.outstanding := by
  unfold appendText
  split <;> rfl

theorem outstanding_deliver [LogSink σ] (w : Tailer σ) (f : Frame) :
    (w.deliver f).2.outstanding = w.outstanding := by
  have h := outstanding_appendText { w with decoder := (w.decoder.decode f.stream f.payload).2 }
    (w.decoder.decode f.stream f.payload).1
  unfold deliver
  dsimp only
  split
  · rename_i heq
    rw [heq] at h
    exact h
  · rename_i heq
    rw [heq] at h
    exact h

theorem outstanding_awaitUntil (deadline now : Nat) (d : Demux) (coming : List Arrival) :
    let waited := awaitUntil deadline now d coming
    waited.answer.wireSize + (waited.demux.outstanding + arriving waited.coming) ≤
      d.outstanding + arriving coming := by
  induction coming generalizing now d with
  | nil =>
    have := d.outstanding_poll
    simp only [awaitUntil]
    omega
  | cons a rest ih =>
    have hpoll := d.outstanding_poll
    have hfeed := d.poll.2.outstanding_feed_le a.reply
    have hih := ih (max now a.time) (d.poll.2.feed a.reply)
    have hsplit : arriving (a :: rest) = a.reply.content.length + arriving rest := rfl
    simp only [awaitUntil]
    split
    · simp only
      omega
    split
    · simp only at hih ⊢
      omega
    · simp only
      omega

/-- Waiting never makes more bytes outstanding, and a frame takes its own bytes away. -/
theorem outstanding_await (patience : Nat) (w : Tailer σ) :
    (w.await patience).1.wireSize + (w.await patience).2.outstanding ≤ w.outstanding :=
  outstanding_awaitUntil (w.now + patience) w.now w.demux w.coming

/-- Takes frames until none comes in time, the stream ends or fails, or the log fails.  No frame is
waited for once `pollInterval` has gone by since the pass started.  Also tells whether any frame was
taken. -/
def takeFrames [LogSink σ] (c : Settings) (started : Nat) (any : Bool) (w : Tailer σ) :
    PassEnd × Bool × Tailer σ :=
  if started + c.pollInterval ≤ w.now then (.idle, any, w)
  else
    match _hawait : w.await c.drainIdle with
    | (.notReady, w) => (.idle, any, w)
    | (.ended, w) => (.endOfStream, any, w)
    | (.error e, w) => (.failed (.demux e), any, w)
    | (.frame f, waited) =>
      match _hdeliver : waited.deliver f with
      | (.error e, w) => (.failed (.log e), any, w)
      | (.ok (), delivered) => takeFrames c started true delivered
termination_by w.outstanding
decreasing_by
  have hle := outstanding_await c.drainIdle w
  have heq := outstanding_deliver waited f
  simp only [_hawait, _hdeliver, Answer.wireSize, Frame.wireSize, Header.size] at hle heq
  omega

/-- One pass.  The log is flushed if any frame was taken, whatever ended the pass. -/
def pass [LogSink σ] (c : Settings) (w : Tailer σ) : PassEnd × Tailer σ :=
  match takeFrames c w.now false w with
  | (ending, true, w) =>
    match w.call .flush with
    | (.ok (), w) => (ending, w)
    | (.error e, w) => (.failed (.log e), w)
  | (ending, false, w) => (ending, w)

/-- The tailer was asked to stop by now. -/
def stopVisible (s : Surroundings) (now : Nat) : Bool :=
  match s.stopAt with
  | some t => t ≤ now
  | none => false

/-- Whether the tailer should stop now, and why.  A request is looked at first; the build is asked
about only if there is none. -/
def pendingStop (s : Surroundings) (w : Tailer σ) : Option StopReason × Tailer σ :=
  if stopVisible s w.now then (some .requested, w)
  else
    (if s.build w.now w.checks then none else some .buildFinished,
      { w with checks := w.checks + 1 })

/-- The last pass, before a stop for the given reason.  If it fails, that is the reason. -/
def lastPass [LogSink σ] (s : Surroundings) (reason : StopReason) (w : Tailer σ) :
    StopReason × Tailer σ :=
  match w.pass s.settings with
  | (.failed e, w) => (.failed e, w)
  | (_, w) => (reason, w)

/-- When a wait that starts now is over: after `pollInterval`, or earlier if the tailer is asked
to stop. -/
def wakeTime (s : Surroundings) (now : Nat) : Nat :=
  match s.stopAt with
  | some t => min (now + s.settings.pollInterval) (max now t)
  | none => now + s.settings.pollInterval

/-- A pass and the wait after it.  Gives the reason to stop, if there is one. -/
def round [LogSink σ] (s : Surroundings) (w : Tailer σ) : Option StopReason × Tailer σ :=
  match w.pass s.settings with
  | (.endOfStream, w) => (some .endOfStream, w)
  | (.failed e, w) => (some (.failed e), w)
  | (.idle, w) =>
    match w.pendingStop s with
    | (some reason, w) =>
      let (reason, w) := w.lastPass s reason
      (some reason, w)
    | (none, w) =>
      match pendingStop s { w with now := wakeTime s w.now } with
      | (some reason, w) =>
        let (reason, w) := w.lastPass s reason
        (some reason, w)
      | (none, w) => (none, w)

/-- Goes through rounds until there is a reason to stop; nothing if that takes more rounds than
allowed. -/
def rounds [LogSink σ] (s : Surroundings) : Nat → Tailer σ → Option (StopReason × Tailer σ)
  | 0, _ => none
  | n + 1, w =>
    match w.round s with
    | (some reason, w) => some (reason, w)
    | (none, w) => rounds s n w

/-- When throwing away the rest of a transport is over: when its end is reached or a read fails,
or at the deadline. -/
def drainedBy (drain : Drain) (deadline : Nat) (now : Nat) (t : Transport) : List Arrival → Nat
  | [] => if drain.run t = .waiting then deadline else now
  | a :: rest =>
    if drain.run t = .waiting then
      if a.time ≤ deadline then
        drainedBy drain deadline (max now a.time) ⟨[a.reply], t.ending⟩ rest
      else deadline
    else now

/-- Lets go of the transport, after at most `patience`. -/
def releaseTransport (drain : Drain) (patience : Nat) (w : Tailer σ) : Tailer σ :=
  let released := { w with demux := (w.demux.close drain).2 }
  match w.demux.transport with
  | none => released
  | some t =>
    if w.demux.atEnd then released
    else { released with now := drainedBy drain (w.now + patience) w.now t w.coming }

/-- Appends what still waits for the rest of its character, one stream after the other; that the
log refuses it changes nothing. -/
def appendRests [LogSink σ] (w : Tailer σ) : List StreamType → Tailer σ
  | [] => w
  | s :: streams =>
    match w.decoder.finish s with
    | (text, decoder) =>
      match appendText { w with decoder := decoder } text with
      | (_, w) => appendRests w streams

/-- What every tailer does in the end. -/
def release [LogSink σ] (s : Surroundings) (w : Tailer σ) : Tailer σ :=
  (((w.appendRests StreamType.all).releaseTransport s.drain s.settings.releaseTimeout).call
    .finalize).2

/-- Tails to the end: the reason to stop, and the tailer once it has released everything.  Nothing
if more rounds are needed than allowed. -/
def run [LogSink σ] (s : Surroundings) (allowed : Nat) (w : Tailer σ) :
    Option (StopReason × Tailer σ) :=
  (w.rounds s allowed).map fun (reason, w) => (reason, w.release s)

end Tailer

end BuildStep
