import BuildStep.SortedMap
import BuildStep.Stream.Demux
import BuildStep.Stream.TextDecoder

/-!
# Captured streams

A capture is a stream that was written down from its beginning.  It can be read in two ways: bit by
bit through a reader of frames, or all at once, which says in the plainest way what there is to
find.

* `Demux.allFrames` takes frames from a reader until there is none.
* `Capture.decode` finds the frames in the bytes of a whole stream, and how the stream ends.
* `Capture.transcript` is the text of the frames, `Capture.totals` counts them.
* `Demux.outstanding_next`: a frame that is returned accounts for the bytes that are gone.
-/

namespace BuildStep

namespace Demux

/-- What is handed over and what is still outstanding is what was outstanding before. -/
theorem outstanding_next (d : Demux) :
    d.next.1.wireSize + d.next.2.outstanding = d.outstanding := by
  fun_induction next d with
  | case1 d d' hpoll hlt ih =>
    have h := d.outstanding_poll
    rw [hpoll] at h
    simp only [Answer.wireSize] at h
    omega
  | case2 d d' hpoll hlt =>
    have h := d.outstanding_poll
    rw [hpoll] at h
    exact h
  | case3 d =>
    exact d.outstanding_poll

/-- All frames up to the end of the stream, and the answer that came in place of another frame. -/
def allFrames (d : Demux) : List Frame × Answer :=
  match _hnext : d.next with
  | (.frame f, d') => let (frames, last) := allFrames d'; (f :: frames, last)
  | (answer, _) => ([], answer)
termination_by d.outstanding
decreasing_by
  have h := outstanding_next d
  rw [_hnext] at h
  simp only [Answer.wireSize, Frame.wireSize, Header.size] at h
  omega

end Demux

/-- Some text of a stream. -/
structure StreamText where
  stream : StreamType
  text : Text
deriving DecidableEq, Repr

/-- How much there is of a stream. -/
structure Totals where
  frames : Nat
  bytes : Nat
deriving DecidableEq, Repr

/-- The totals with one more frame. -/
def Totals.add (t : Totals) (f : Frame) : Totals :=
  ⟨t.frames + 1, t.bytes + f.payload.length⟩

namespace Capture

/-- All frames of a stream, and the answer that comes after them. -/
def decode (bytes : List UInt8) : List Frame × Answer :=
  match _hfront : Front.of bytes with
  | .whole f rest => let (frames, last) := decode rest; (f :: frames, last)
  | .unknown b => ([], .error (.unknownStream b))
  | .incomplete => ([], Demux.endOfStream bytes)
termination_by bytes.length
decreasing_by
  have h := Front.length_of_whole _hfront
  simp only [Frame.wireSize, Header.size] at h
  omega

/-- The text that each frame completes, and the decoder after the last of them. -/
def texts (d : TextDecoder) : List Frame → List StreamText × TextDecoder
  | [] => ([], d)
  | f :: frames =>
    let (t, d) := d.decode f.stream f.payload
    let (rest, d) := texts d frames
    (⟨f.stream, t⟩ :: rest, d)

/-- The text of the characters that no frame completed, by stream. -/
def rests (d : TextDecoder) : List StreamText :=
  (StreamType.all.map fun s => ⟨s, (d.finish s).1⟩).filter fun t => !t.text.isEmpty

/-- The text of some frames: one entry for each frame, and one for each stream that ends in the
middle of a character. -/
def transcript (frames : List Frame) : List StreamText :=
  let (texts, d) := texts .new frames
  texts ++ rests d

/-- The totals of the streams that some frames belong to, by name. -/
def totals (frames : List Frame) : SortedMap Text Totals :=
  frames.foldl
    (fun m f =>
      let name := f.stream.name.toList
      m.insert name (((m.get? name).getD ⟨0, 0⟩).add f))
    .empty

end Capture

end BuildStep
