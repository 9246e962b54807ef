import BuildStep.Proofs.Stream.HeldBack
import BuildStep.Proofs.Text.Lossy
import BuildStep.Stream.Capture

/-!
# Text that was cut into payloads

Payloads are cut anywhere, also inside a character, and those of the three streams take turns.  The
text of a stream must not show this: it is the text of all its bytes, read at once.

A decoder decides on a cheap look at the last three bytes where to stop for now.  Wherever it stops,
no character goes on there, whatever comes next; and where it does not stop, no character is
unfinished.

## Key results

- `decode_take_append_decode_drop`: reading up to the cut and reading on from it is reading at once
- `textOf_texts_append_finish`: the same along any frames, from any decoder
- `lossy_bytesOf_iff`: the text of a stream is the lenient reading of its payloads
-/

namespace BuildStep

/-! ## Where a decoder stops -/

namespace TextDecoder

/-- Reading up to the cut and reading on from it is reading at once, whatever comes next. -/
theorem decode_take_append_decode_drop (bytes more : List UInt8) :
    Utf8.decode (bytes.take (completeLength bytes)) ++
      Utf8.decode (bytes.drop (completeLength bytes) ++ more) = Utf8.decode (bytes ++ more) := by
  rw [← Utf8.decode_append, ← List.append_assoc, List.take_append_drop]
  intro p b hp hhead hb
  -- where the machine is inside a character, the bytes up to there end in an unfinished one
  obtain ⟨pre, part, hpart, hopened⟩ := Utf8.exists_opened_of_run hp
  obtain hnone | hwaiting := waiting_cases bytes
  · -- nothing is held back, so this is the end of all bytes
    have hall := take_append_waiting bytes
    rw [hnone, List.append_nil, hpart] at hall
    have hpart' := (unfinished_of_opened hopened).waiting_eq pre
    rw [hall, hnone] at hpart'
    exact (unfinished_of_opened hopened).ne_nil hpart'.symm
  · -- what is held back starts with a byte that no character goes on with
    obtain ⟨b', conts, width, heq, hwidth, -⟩ := hwaiting
    rw [waiting] at heq
    rw [heq] at hhead
    cases hhead
    exact (of_width? hwidth).1 (isContinuation_of_allows hopened hb)

end TextDecoder

/-! ## Along the frames of all streams -/

/-- The payloads of one of the streams, one after the other. -/
def Capture.bytesOf (s : StreamType) (frames : List Frame) : List UInt8 :=
  (frames.filter fun f => f.stream = s).flatMap Frame.payload

/-- The texts of one of the streams, one after the other. -/
def Capture.textOf (s : StreamType) (texts : List StreamText) : Text :=
  (texts.filter fun t => t.stream = s).flatMap StreamText.text

namespace Capture

theorem bytesOf_cons (s : StreamType) (f : Frame) (frames : List Frame) :
    bytesOf s (f :: frames) = (if f.stream = s then f.payload else []) ++ bytesOf s frames := by
  by_cases h : f.stream = s <;> simp [bytesOf, h]

theorem textOf_cons (s : StreamType) (t : StreamText) (texts : List StreamText) :
    textOf s (t :: texts) = (if t.stream = s then t.text else []) ++ textOf s texts := by
  by_cases h : t.stream = s <;> simp [textOf, h]

theorem texts_cons (d : TextDecoder) (f : Frame) (frames : List Frame) :
    texts d (f :: frames) =
      (⟨f.stream, (d.decode f.stream f.payload).1⟩ ::
          (texts (d.decode f.stream f.payload).2 frames).1,
        (texts (d.decode f.stream f.payload).2 frames).2) := rfl

/-- From any decoder on, the text of a stream is that of the bytes that wait and the bytes that
come, whatever the cuts and the other streams. -/
theorem textOf_texts_append_finish (d : TextDecoder) (frames : List Frame) (s : StreamType) :
    textOf s (texts d frames).1 ++ ((texts d frames).2.finish s).1 =
      Utf8.decode (d.held s ++ bytesOf s frames) := by
  induction frames generalizing d with
  | nil =>
    show Utf8.decode (d.held s) = Utf8.decode (d.held s ++ [])
    rw [List.append_nil]
  | cons f frames ih =>
    rw [texts_cons, textOf_cons, bytesOf_cons, List.append_assoc, ih]
    by_cases hs : f.stream = s
    · -- the frame's bytes join those that wait, and the cut does not show
      subst hs
      rw [if_pos rfl, if_pos rfl, TextDecoder.held_decode_self,
        ← List.append_assoc (d.held f.stream)]
      exact TextDecoder.decode_take_append_decode_drop _ _
    · -- the frame of another stream leaves alone what waits on this one
      rw [if_neg hs, if_neg hs, TextDecoder.held_decode_of_ne d (Ne.symm hs), List.nil_append,
        List.nil_append]

/-- Before the first frame nothing waits, so all of the text is that of the frames. -/
theorem textOf_texts_new (frames : List Frame) (s : StreamType) :
    textOf s (texts .new frames).1 ++ ((texts .new frames).2.finish s).1 =
      Utf8.decode (bytesOf s frames) := by
  rw [textOf_texts_append_finish, TextDecoder.held_new, List.nil_append]

/-- The `texts` of a stream and what `TextDecoder.finish` adds are the `Utf8.Lossy` reading of the
bytes of the stream, and only that. -/
theorem lossy_bytesOf_iff (frames : List Frame) (s : StreamType) (t : Text) :
    Utf8.Lossy (bytesOf s frames) t ↔
      t = textOf s (texts .new frames).1 ++ ((texts .new frames).2.finish s).1 := by
  have hheld : TextDecoder.new.held s = [] := by
    cases s <;> rfl
  rw [textOf_texts_append_finish, hheld, List.nil_append]
  exact Utf8.lossy_iff _ t

end Capture

end BuildStep
