import BuildStep.Stream.Drain
import BuildStep.Stream.Frame

/-! # Taking frames from a transport

A `Demux` reads a transport and keeps what it has read until a frame is complete.  Whoever gives up
waiting loses nothing: the bytes of an unfinished frame stay in the buffer.  The end of the
transport is a clean end only between frames; after the first end or failure there is nothing more.

* `Demux.poll` makes progress without waiting; `Demux.next` repeats it while the transport is not
  ready; `Demux.tryNext` reports a transport that is not ready as nothing at all.
* `Demux.close` reads what is left and lets go of the transport.
* `Demux.outstanding_poll`: a frame that is returned accounts for the bytes that are gone. -/

namespace BuildStep

/-- Why a stream cannot be read on. -/
inductive DemuxError
  /-- The stream ended inside a header. -/
  | truncatedHeader (available : Nat)
  /-- The stream ended inside a payload. -/
  | truncatedPayload (expected : UInt32) (available : Nat)
  /-- A header names no stream. -/
  | unknownStream (byte : UInt8)
  /-- The transport failed. -/
  | transport (e : IoError)
deriving DecidableEq, Repr

namespace DemuxError

/-- The wording of the error. -/
def message : DemuxError → String
  | .truncatedHeader available =>
    s!"stream ended inside a frame header ({available} of {Header.size} bytes)"
  | .truncatedPayload expected available =>
    s!"stream ended inside a frame payload ({available} of {expected.toNat} bytes)"
  | .unknownStream byte => s!"invalid stream type {byte.toNat}"
  | .transport e => s!"transport error: {e.message}"

/-- The bytes are at fault, and not the transport. -/
def isProtocol : DemuxError → Bool
  | .transport _ => false
  | _ => true

end DemuxError

/-- What a request for the next frame answers. -/
inductive Answer
  /-- The transport is not ready, and nothing is decided. -/
  | notReady
  /-- The next frame. -/
  | frame (f : Frame)
  /-- There are no more frames. -/
  | ended
  /-- The stream cannot be read on. -/
  | error (e : DemuxError)
deriving DecidableEq, Repr

/-- The answer says more than that the transport is not ready. -/
def Answer.isDecided : Answer → Bool
  | .notReady => false
  | _ => true

/-- Number of bytes on the wire that an answer hands over. -/
def Answer.wireSize : Answer → Nat
  | .frame f => f.wireSize
  | _ => 0

/-- How letting go of a transport ended. -/
inductive Release
  /-- This many bytes were thrown away. -/
  | discarded (count : Nat)
  /-- Reading what was left failed. -/
  | failed (e : IoError)
  /-- The transport is silent and its end was not reached. -/
  | waiting
deriving DecidableEq, Repr

/-- A reader of frames. -/
structure Demux where
  /-- What is read, until it is closed. -/
  transport : Option Transport
  /-- Bytes that were read and belong to no returned frame. -/
  buffer : List UInt8
  /-- The end of the transport was reached. -/
  atEnd : Bool
  /-- The end of the stream or an error was returned. -/
  finished : Bool
deriving DecidableEq, Repr

namespace Demux

/-- A reader that has read nothing yet. -/
def new (t : Transport) : Demux :=
  ⟨some t, [], false, false⟩

/-- What the bytes left over mean once no more will come. -/
def endOfStream (buffer : List UInt8) : Answer :=
  if buffer.isEmpty then .ended
  else
    match Header.read buffer with
    | none => .error (.truncatedHeader buffer.length)
    | some (.error b) => .error (.unknownStream b)
    | some (.ok (h, rest)) => .error (.truncatedPayload h.length rest.length)

/-- A bound on the reads that can still change anything. -/
def readsLeft (d : Demux) : Nat :=
  (match d.transport with
    | some t => t.replies.length
    | none => 0) + if d.atEnd then 0 else 1

/-- Answers from the buffer if it can, and else reads until it can or the transport is not
ready. -/
def poll (d : Demux) : Answer × Demux :=
  if d.finished then (.ended, d)
  else
    match Front.of d.buffer with
    | .whole f rest => (.frame f, { d with buffer := rest })
    | .unknown b => (.error (.unknownStream b), { d with finished := true })
    | .incomplete =>
      if _hend : d.atEnd then (endOfStream d.buffer, { d with finished := true })
      else
        match _htransport : d.transport with
        | none => (.ended, { d with finished := true })
        | some t =>
          match _hread : t.read with
          | (.notReady, t) => (.notReady, { d with transport := some t })
          | (.ended, t) => poll { d with transport := some t, atEnd := true }
          | (.bytes bs, t) => poll { d with transport := some t, buffer := d.buffer ++ bs }
          | (.failed e, t) =>
            if e.isTransient then poll { d with transport := some t }
            else (.error (.transport e), { d with transport := some t, finished := true })
termination_by d.readsLeft
decreasing_by
  · have hle := Transport.length_read_le _hread
    simp only [readsLeft, _htransport, _hend]
    simp; omega
  · have hlt := Transport.length_read_lt _hread (by simp) (by simp)
    simp only [readsLeft, _htransport, _hend]
    simp; omega
  · have hlt := Transport.length_read_lt _hread (by simp) (by simp)
    simp only [readsLeft, _htransport, _hend]
    simp; omega

/-- The next frame, the end or an error, with reads that are not ready repeated for as long as
that uses up replies. -/
def next (d : Demux) : Answer × Demux :=
  match d.poll with
  | (.notReady, d') => if d'.readsLeft < d.readsLeft then next d' else (.notReady, d')
  | answered => answered
termination_by d.readsLeft

/-- The next frame if it can be had without waiting.  That there is none is also the answer if the
transport is not ready; the two differ in `finished`. -/
def tryNext (d : Demux) : Answer × Demux :=
  match d.poll with
  | (.notReady, d) => (.ended, d)
  | answered => answered

/-- Reads the rest of the transport, throws it away with what was buffered, and lets go of the
transport.  Closing again does nothing. -/
def close (drain : Drain) (d : Demux) : Release × Demux :=
  match d.transport with
  | none => (.discarded 0, d)
  | some t =>
    let released : Demux := ⟨none, [], d.atEnd, true⟩
    if d.atEnd then (.discarded d.buffer.length, released)
    else
      match drain.run t with
      | .all count => (.discarded (d.buffer.length + count), released)
      | .failed e => (.failed e, released)
      | .waiting => (.waiting, released)

/-- The reader with one more reply for its transport to give. -/
def feed (d : Demux) (reply : Reply) : Demux :=
  { d with transport := d.transport.map (Transport.feed · reply) }

/-- Number of bytes that are buffered or not yet read. -/
def outstanding (d : Demux) : Nat :=
  d.buffer.length +
    match d.transport with
    | some t => t.content.length
    | none => 0

theorem wireSize_endOfStream (buffer : List UInt8) : (endOfStream buffer).wireSize = 0 := by
  unfold endOfStream
  split
  · rfl
  · split <;> rfl

/-- What is handed over and what is still outstanding is what was outstanding before. -/
theorem outstanding_poll (d : Demux) :
    d.poll.1.wireSize + d.poll.2.outstanding = d.outstanding := by
  fun_induction poll d with
  | case1 d h => simp [Answer.wireSize]
  | case2 d h f rest hfront =>
    have := Front.length_of_whole hfront
    simp only [Answer.wireSize, outstanding]
    omega
  | case3 d h b hfront => simp [Answer.wireSize, outstanding]
  | case4 d h hfront hend => simp [wireSize_endOfStream, outstanding]
  | case5 d h hfront hend ht => simp [Answer.wireSize, outstanding]
  | case6 d h hfront hend t ht t' hread =>
    simp [Answer.wireSize, outstanding, ht, Transport.content_read_none hread rfl]
  | case7 d h hfront hend t ht t' hread ih =>
    rw [ih]
    simp [outstanding, ht, Transport.content_read_none hread rfl]
  | case8 d h hfront hend t ht bs t' hread ih =>
    rw [ih]
    simp [outstanding, ht, Transport.content_read hread]
    omega
  | case9 d h hfront hend t ht e t' hread htransient ih =>
    rw [ih]
    simp [outstanding, ht, Transport.content_read_none hread rfl]
  | case10 d h hfront hend t ht e t' hread htransient =>
    simp [Answer.wireSize, outstanding, ht, Transport.content_read_none hread rfl]

/-- A new reply adds its bytes, unless there is no transport to give it. -/
theorem outstanding_feed_le (d : Demux) (reply : Reply) :
    (d.feed reply).outstanding ≤ d.outstanding + reply.content.length := by
  cases h : d.transport with
  | none => simp [feed, outstanding, h]
  | some t => simp [feed, outstanding, h, Transport.feed, Transport.content]; omega

end Demux

end BuildStep
