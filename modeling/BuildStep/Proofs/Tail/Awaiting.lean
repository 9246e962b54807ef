import BuildStep.Proofs.Stream.Reading
import BuildStep.Tail.Tailer

/-!
# Waiting for the next frame

A tailer waits for a frame while its transport is given one reply after the other, and gives up when
the time is over.  To its reader all of this is one request: the replies that come meanwhile were
part of the course all along, so only the answer counts and not how long it took.

## Key results

- `Demux.course_feed`: a reply that comes leaves the course as it is
- `Tailer.awaitUntil_fed`, `Tailer.awaitUntil_step`: waiting is one request, however many replies
  come meanwhile
- `Tailer.await_cases`: waiting takes the next frame, or nothing, or shows that there is none
-/

namespace BuildStep

/-- The course of a transport that gives these replies, and nothing after them. -/
def Arrival.course (arrivals : List Arrival) : Course :=
  Reply.course .silent (arrivals.map Arrival.reply)

/-! ## Replies that come while a reader waits -/

namespace Demux

variable {d : Demux} {reply : Reply} {rest : List Reply}

/-- A reply that comes leaves the course as it is. -/
theorem course_feed (h : d.Reading (reply :: rest)) :
    (d.feed reply).course rest = d.course (reply :: rest) := by
  obtain ⟨t, ht, -⟩ := h.transport
  simp [course, unread, feed, ht, Transport.course, Transport.feed]

theorem Reading.feed (h : d.Reading (reply :: rest)) : (d.feed reply).Reading rest := by
  obtain ⟨t, ht, hawaits⟩ := h.transport
  -- a transport that is still to be given a reply is silent for now
  refine ⟨h.unfinished, t.feed reply, by rw [Demux.feed, ht]; rfl, .inl ?_⟩
  exact hawaits.resolve_right (List.cons_ne_nil _ _)

end Demux

namespace Tailer

/-- Waiting is one request to a transport that gives the replies that come meanwhile, whatever it
would give after them.  The time moves on as far as the last of these replies. -/
theorem awaitUntil_fed {deadline now : Nat} (hnow : now ≤ deadline) (d : Demux)
    (coming : List Arrival) :
    let waited := awaitUntil deadline now d coming
    ∃ fed, coming = fed ++ waited.coming ∧ now ≤ waited.now ∧ (∀ a ∈ fed, a.time ≤ waited.now) ∧
      ∀ more, d.Reading (fed.map Arrival.reply ++ more) →
        Demux.Step (fed.map Arrival.reply ++ more) d waited.answer more waited.demux := by
  induction coming generalizing now d with
  | nil =>
    simp only [awaitUntil]
    refine ⟨[], rfl, ?_, by simp, fun more h => Demux.poll_step h⟩
    split
    · exact Nat.le_refl now
    · exact hnow
  | cons a rest ih =>
    simp only [awaitUntil]
    by_cases hdecided : d.poll.1.isDecided = true
    · -- the buffer or the reads so far decide, and nothing is waited for
      rw [if_pos hdecided]
      exact ⟨[], rfl, Nat.le_refl now, by simp, fun more h => Demux.poll_step h⟩
    · rw [if_neg hdecided]
      have hnot := Answer.eq_notReady_of_not_isDecided hdecided
      by_cases htime : a.time ≤ deadline
      · -- the reply that comes is read on the same course
        rw [if_pos htime]
        obtain ⟨fed, hcoming, hlater, htimes, hstep⟩ :=
          ih (Nat.max_le.mpr ⟨hnow, htime⟩) (d.poll.2.feed a.reply)
        obtain ⟨hfirst, hsecond⟩ := Nat.max_le.mp hlater
        refine ⟨a :: fed, by rw [List.cons_append, ← hcoming], hfirst, ?_, ?_⟩
        · exact List.forall_mem_cons.mpr ⟨hsecond, htimes⟩
        · intro more h
          have hpoll := Demux.poll_step h
          rw [hnot] at hpoll
          obtain ⟨hcourse, hreading⟩ := hpoll.of_notReady
          have hfeed := hstep more (Demux.Reading.feed hreading)
          exact hfeed.of_course ((Demux.course_feed hreading).trans hcourse)
      · -- the deadline comes first, and leaves everything as it is
        rw [if_neg htime]
        exact ⟨[], rfl, hnow, by simp, fun more h => Demux.poll_step h⟩

/-- Waiting is one request, however many replies come meanwhile. -/
theorem awaitUntil_step {deadline now : Nat} {d : Demux} {coming : List Arrival}
    (hnow : now ≤ deadline) (h : d.Reading (coming.map Arrival.reply)) :
    let waited := awaitUntil deadline now d coming
    Demux.Step (coming.map Arrival.reply) d waited.answer (waited.coming.map Arrival.reply)
      waited.demux := by
  intro waited
  obtain ⟨fed, hcoming, -, -, hstep⟩ := awaitUntil_fed hnow d coming
  have hmap : fed.map Arrival.reply ++ waited.coming.map Arrival.reply =
      coming.map Arrival.reply := by
    rw [← List.map_append, ← hcoming]
  have hwhole := hstep (waited.coming.map Arrival.reply)
  rw [hmap] at hwhole
  exact hwhole h

variable {σ : Type}

/-- Replies that the transport is still to be given. -/
def replies (w : Tailer σ) : List Reply :=
  w.coming.map Arrival.reply

/-- Frames of the stream that the tailer has not taken. -/
def ahead (w : Tailer σ) : List Frame :=
  Wire.frames (w.demux.course w.replies).bytes

/-- Waiting takes nothing, or takes the next frame, or shows that there is none. -/
theorem await_cases {w : Tailer σ} (h : w.demux.Reading w.replies) (patience : Nat) :
    (∃ f, (w.await patience).1 = .frame f ∧ w.ahead = f :: (w.await patience).2.ahead ∧
        (w.await patience).2.demux.Reading (w.await patience).2.replies) ∨
      ((w.await patience).1 = .notReady ∧ (w.await patience).2.ahead = w.ahead ∧
        (w.await patience).2.demux.Reading (w.await patience).2.replies) ∨
      ((∀ f, (w.await patience).1 ≠ .frame f) ∧ (w.await patience).1 ≠ .notReady) := by
  have hstep : Demux.Step w.replies w.demux (w.await patience).1 (w.await patience).2.replies
      (w.await patience).2.demux := awaitUntil_step (Nat.le_add_right _ _) h
  generalize (w.await patience).1 = answer at hstep ⊢
  cases hstep with
  | frame hframe _ hreading => exact .inl ⟨_, rfl, Wire.frames_of_frame? hframe, hreading⟩
  | notReady hcourse hreading =>
    exact .inr (.inl ⟨rfl, congrArg (fun c : Course => Wire.frames c.bytes) hcourse, hreading⟩)
  | last hframe hverdict hdecided _ =>
    refine .inr (.inr ⟨fun f hf => ?_, fun hnot => ?_⟩)
    · exact Wire.verdict_ne_frame _ _ f (hverdict.symm.trans hf)
    · rw [hnot] at hdecided
      cases hdecided

end Tailer

end BuildStep
