import BuildStep.Proofs.Stream.Conservation

/-!
# The end of a reader

A reader reports the end of its stream once, and an error once, and after that it has nothing more to
do with its transport.  Whoever asks without waiting is told the same thing by a reader that is at its
end and by one whose transport is not ready, so the flag that tells the two apart must be right after
any calls: it must not be forgotten at any way out, and must not be set on the way.

Here too a transport may be any sequence of replies.

## Key results

- `Demux.finished_perform`: a call leaves the flag as its last poll calls for
- `Demux.exists_reads_of_notReady`: a poll that decides nothing ends with a read that is not ready
- `Demux.KeptByPolls.requests`: what a poll and closing keep is kept by any requests
- `Demux.finality`: the flag, the errors and the end of any session
-/

namespace BuildStep

/-! ## Answers that are the last -/

/-- Nothing comes after this answer. -/
def Answer.isLast : Answer → Bool
  | .ended => true
  | .error _ => true
  | _ => false

/-- What the last poll of a call answers.  Only `tryNext` may say something else: it does not tell a
transport that is not ready from the end. -/
def ReadCall.polled (d : Demux) : ReadCall → Answer
  | .next => d.next.1
  | .tryNext => d.poll.1
  | .poll => d.poll.1

/-- After this request there is nothing more to be said: a poll has answered that the stream is over,
or has failed, or the reader is closed. -/
def Request.concludes (d : Demux) : Request → Bool
  | .read c => (c.polled d).isLast
  | .close => true

/-- A call for a frame was answered by an error. -/
def Response.isReadError : Response → Bool
  | .answer (.error _) => true
  | _ => false

namespace Transport

variable {t t₁ t₂ : Transport} {bs : List UInt8} {reply : Reply}

/-- Reads may be counted from the first on. -/
theorem Reads.after_read (hread : t.read = (reply, t₁)) (h : t₁.Reads bs t₂) :
    t.Reads (reply.content ++ bs) t₂ := by
  induction h with
  | none =>
    have hone := Reads.none.more hread
    simpa using hone
  | more _ hlast ih =>
    rw [← List.append_assoc]
    exact ih.more hlast

end Transport

namespace Demux

variable {drain : Drain} {d d' : Demux}

/-! ## The flag after one call -/

theorem isLast_endOfStream (buffer : List UInt8) : (endOfStream buffer).isLast = true := by
  unfold endOfStream
  split
  · rfl
  · split <;> rfl

/-- A poll leaves a finished reader behind exactly if its answer is the last. -/
theorem finished_poll (d : Demux) : d.poll.2.finished = d.poll.1.isLast := by
  -- one case for each way out of a poll; where it reads on, the rest of it decides
  fun_induction poll d with
  | case1 d hfinished => exact hfinished
  | case2 d hfinished f rest hfront => simpa [Answer.isLast] using hfinished
  | case3 d hfinished b hfront => rfl
  | case4 d hfinished hfront hend => exact (isLast_endOfStream d.buffer).symm
  | case5 d hfinished hfront hend ht => rfl
  | case6 d hfinished hfront hend t ht t' hread => simpa [Answer.isLast] using hfinished
  | case7 d hfinished hfront hend t ht t' hread ih => exact ih
  | case8 d hfinished hfront hend t ht bs t' hread ih => exact ih
  | case9 d hfinished hfront hend t ht e t' hread htransient ih => exact ih
  | case10 d hfinished hfront hend t ht e t' hread htransient => rfl

theorem finished_next (d : Demux) : d.next.2.finished = d.next.1.isLast := by
  fun_induction next d with
  | case1 d d' hpoll hlt ih => exact ih
  | case2 d d' hpoll hlt =>
    have hflag := finished_poll d
    rwa [hpoll] at hflag
  | case3 d => exact finished_poll d

theorem tryNext_snd (d : Demux) : d.tryNext.2 = d.poll.2 := by
  rw [tryNext_eq]

/-- A call leaves a finished reader behind exactly if the last poll that it makes says so. -/
theorem finished_perform (d : Demux) (c : ReadCall) :
    (c.perform d).2.finished = (c.polled d).isLast := by
  cases c with
  | next => exact finished_next d
  | tryNext =>
    simp only [ReadCall.perform, ReadCall.polled, tryNext_snd]
    exact finished_poll d
  | poll => exact finished_poll d

theorem polled_of_finished (h : d.finished = true) (c : ReadCall) : c.polled d = .ended := by
  cases c with
  | next => simp only [ReadCall.polled, next_of_finished h]
  | tryNext => simp only [ReadCall.polled, poll_of_finished h]
  | poll => simp only [ReadCall.polled, poll_of_finished h]

/-- An error is only ever the answer of the last poll. -/
theorem polled_of_error {e : DemuxError} {c : ReadCall} (h : (c.perform d).1 = .error e) :
    c.polled d = .error e := by
  cases c with
  | next => exact h
  | poll => exact h
  | tryNext =>
    simp only [ReadCall.perform, tryNext] at h
    split at h
    · cases h
    · exact h

/-! ## A transport that is not ready -/

/-- A poll that decides nothing has read on until a read was not ready, and keeps all that it has read
in its buffer. -/
theorem exists_reads_of_notReady (h : d.poll.1 = .notReady) :
    ∃ t t₁ t₂ bs, d.transport = some t ∧ t.Reads bs t₁ ∧ t₁.read = (.notReady, t₂) ∧
      d.poll.2.transport = some t₂ ∧ d.poll.2.buffer = d.buffer ++ bs := by
  fun_induction poll d with
  | case4 d hfinished hfront hend =>
    -- the end of a stream is always decided
    have hlast := isLast_endOfStream d.buffer
    rw [show endOfStream d.buffer = .notReady from h] at hlast
    cases hlast
  | case6 d hfinished hfront hend t ht t' hread =>
    exact ⟨t, t, t', [], ht, .none, hread, rfl, by simp⟩
  | case7 d hfinished hfront hend t ht t' hread ih =>
    obtain ⟨s, t₁, t₂, bs, hs, hreads, hlast, htransport, hbuffer⟩ := ih h
    cases hs
    exact ⟨t, t₁, t₂, bs, ht, hreads.after_read hread, hlast, htransport, hbuffer⟩
  | case8 d hfinished hfront hend t ht bs' t' hread ih =>
    obtain ⟨s, t₁, t₂, bs, hs, hreads, hlast, htransport, hbuffer⟩ := ih h
    cases hs
    refine ⟨t, t₁, t₂, bs' ++ bs, ht, hreads.after_read hread, hlast, htransport, ?_⟩
    rw [hbuffer, List.append_assoc]
  | case9 d hfinished hfront hend t ht e t' hread htransient ih =>
    obtain ⟨s, t₁, t₂, bs, hs, hreads, hlast, htransport, hbuffer⟩ := ih h
    cases hs
    exact ⟨t, t₁, t₂, bs, ht, hreads.after_read hread, hlast, htransport, hbuffer⟩
  | _ => cases h

/-- Who is told that there is no frame, by a reader that is not finished, has asked too early. -/
theorem poll_of_tryNext (h : d.tryNext = (.ended, d')) (hunfinished : d'.finished = false) :
    d.poll = (.notReady, d') := by
  have hpoll : d.poll.2 = d' := by rw [← tryNext_snd, h]
  have hflag := finished_poll d
  rw [hpoll, hunfinished] at hflag
  -- a poll that decides something is what the call answers, and this answer would be the last
  refine Prod.ext (Answer.eq_notReady_of_not_isDecided fun hdecided => ?_) hpoll
  rw [tryNext_of_decided hdecided] at h
  rw [h] at hflag
  cases hflag

/-! ## What any requests keep -/

/-- A poll keeps the property, and so does closing. -/
structure KeptByPolls (drain : Drain) (P : Demux → Prop) : Prop where
  poll : ∀ {d}, P d → P d.poll.2
  close : ∀ {d}, P d → P (d.close drain).2

namespace KeptByPolls

variable {P : Demux → Prop}

theorem next (hkept : KeptByPolls drain P) (h : P d) : P d.next.2 := by
  fun_induction Demux.next d with
  | case1 d d' hpoll hlt ih =>
    have hstep := hkept.poll h
    rw [hpoll] at hstep
    exact ih hstep
  | case2 d d' hpoll hlt =>
    have hstep := hkept.poll h
    rwa [hpoll] at hstep
  | case3 d => exact hkept.poll h

theorem request (hkept : KeptByPolls drain P) (h : P d) (r : Request) : P (r.perform drain d).2 := by
  cases r with
  | close => exact hkept.close h
  | read c =>
    cases c with
    | next => exact hkept.next h
    | tryNext =>
      simp only [Request.perform, ReadCall.perform, tryNext_snd]
      exact hkept.poll h
    | poll => exact hkept.poll h

theorem requests (hkept : KeptByPolls drain P) (h : P d) (rs : List Request) :
    P (d.requests drain rs).2 := by
  induction rs generalizing d with
  | nil => exact h
  | cons r rs ih => exact ih (hkept.request h r)

end KeptByPolls

/-! ## The flag in a session -/

/-- A reader that has let go of its transport is finished. -/
def Tied (d : Demux) : Prop :=
  d.transport = none → d.finished = true

theorem tied_new (t : Transport) : (new t).Tied := by
  intro hnone
  cases hnone

/-- A poll does not let go of the transport. -/
theorem transport_poll_ne_none (h : d.transport ≠ none) : d.poll.2.transport ≠ none := by
  fun_induction poll d with
  | case6 d hfinished hfront hend t ht t' hread => exact Option.some_ne_none t'
  | case7 d hfinished hfront hend t ht t' hread ih => exact ih (Option.some_ne_none t')
  | case8 d hfinished hfront hend t ht bs t' hread ih => exact ih (Option.some_ne_none t')
  | case9 d hfinished hfront hend t ht e t' hread htransient ih =>
    exact ih (Option.some_ne_none t')
  | case10 d hfinished hfront hend t ht e t' hread htransient => exact Option.some_ne_none t'
  | _ => exact h

theorem Tied.poll (h : d.Tied) : d.poll.2.Tied := by
  by_cases hnone : d.transport = none
  · rw [poll_of_finished (h hnone)]
    exact h
  · intro hgone
    exact absurd hgone (transport_poll_ne_none hnone)

theorem keptByPolls_tied : KeptByPolls drain Tied where
  poll h := h.poll
  close h := fun _ => (close_released drain h).2

theorem Tied.request (h : d.Tied) (drain : Drain) (r : Request) : (r.perform drain d).2.Tied :=
  keptByPolls_tied.request h r

theorem Tied.requests (h : d.Tied) (rs : List Request) : (d.requests drain rs).2.Tied :=
  keptByPolls_tied.requests h rs

/-- A request leaves a finished reader behind exactly if it is one that concludes. -/
theorem Tied.finished_request (h : d.Tied) (r : Request) :
    (r.perform drain d).2.finished = r.concludes d := by
  cases r with
  | read c => exact finished_perform d c
  | close => exact (close_released drain h).2

theorem concludes_of_finished (h : d.finished = true) (r : Request) : r.concludes d = true := by
  cases r with
  | read c => simp only [Request.concludes, polled_of_finished h, Answer.isLast]
  | close => rfl

/-- A reader that is finished stays so. -/
theorem Tied.finished_requests (h : d.Tied) (hfinished : d.finished = true) (rs : List Request) :
    (d.requests drain rs).2.finished = true := by
  induction rs generalizing d with
  | nil => exact hfinished
  | cons r rs ih =>
    refine ih (h.request drain r) ?_
    rw [h.finished_request, concludes_of_finished hfinished]

/-- Requests leave a finished reader behind exactly if it was one before, or one of them concludes. -/
theorem Tied.finished_requests_iff (h : d.Tied) (rs : List Request) :
    (d.requests drain rs).2.finished = true ↔
      d.finished = true ∨
        ∃ before r after, rs = before ++ r :: after ∧
          r.concludes (d.requests drain before).2 = true := by
  induction rs generalizing d with
  | nil => simp [Demux.requests]
  | cons r rs ih =>
    have hrest := ih (h.request drain r)
    rw [h.finished_request] at hrest
    refine hrest.trans ⟨?_, ?_⟩
    · rintro (hr | ⟨before, r', after, rfl, hr'⟩)
      · exact .inr ⟨[], r, rs, rfl, hr⟩
      · exact .inr ⟨r :: before, r', after, rfl, hr'⟩
    · rintro (hfinished | ⟨before, r', after, hsplit, hr'⟩)
      · exact .inl (concludes_of_finished hfinished r)
      · -- the request that concludes is the first one, or is among the rest
        cases before with
        | nil =>
          cases hsplit
          exact .inl hr'
        | cons r'' before =>
          cases hsplit
          exact .inr ⟨before, r', after, rfl, hr'⟩

/-! ## Errors in a session -/

/-- Only a reader that is not finished answers by an error, and it is finished then. -/
theorem of_isReadError {r : Request} (h : (r.perform drain d).1.isReadError = true) :
    d.finished = false ∧ r.concludes d = true := by
  cases r with
  | close => cases h
  | read c =>
    cases hanswer : (c.perform d).1 with
    | error e =>
      constructor
      · rw [Bool.eq_false_iff]
        intro hfinished
        rw [perform_of_finished hfinished] at hanswer
        cases hanswer
      · simp only [Request.concludes, polled_of_error hanswer, Answer.isLast]
    | _ =>
      simp only [Request.perform, hanswer] at h
      cases h

/-- Errors are answered to calls at most once, and never by a reader that was finished before. -/
theorem Tied.countP_isReadError_le (h : d.Tied) (rs : List Request) :
    (d.requests drain rs).1.countP Response.isReadError ≤ if d.finished then 0 else 1 := by
  induction rs generalizing d with
  | nil => simp [Demux.requests]
  | cons r rs ih =>
    have hrest := ih (h.request drain r)
    rw [h.finished_request] at hrest
    simp only [Demux.requests, List.countP_cons]
    by_cases herror : (r.perform drain d).1.isReadError = true
    · -- the one error: the reader was not finished before and is now
      obtain ⟨hunfinished, hconcludes⟩ := of_isReadError herror
      rw [hconcludes, if_pos rfl] at hrest
      rw [herror, if_pos rfl, hunfinished]
      simpa using hrest
    · rw [if_neg herror]
      refine Nat.le_trans hrest ?_
      by_cases hfinished : d.finished = true
      · simp [hfinished, concludes_of_finished hfinished r]
      · rw [if_neg hfinished]
        split <;> omega

/-- A reader is finished from the first request on that `concludes`, and from then on answers every
call by `ended`; it reports one error at most.  Where `Demux.tryNext` finds no frame and leaves the
reader unfinished, it has read until the transport was not ready. -/
theorem finality (drain : Drain) (t : Transport) (rs : List Request) :
    let d := ((new t).requests drain rs).2
    (d.finished = true ↔ ∃ before r after,
        rs = before ++ r :: after ∧ r.concludes ((new t).requests drain before).2 = true) ∧
      (d.finished = true → ∀ later, (d.requests drain later).2.finished = true) ∧
      ((new t).requests drain rs).1.countP Response.isReadError ≤ 1 ∧
      (d.finished = true → ∀ c : ReadCall, c.perform d = (.ended, d)) ∧
      ∀ d', d.tryNext = (.ended, d') → d'.finished = false →
        (∃ t₀ t₁ t₂ taken, d.transport = some t₀ ∧ t₀.Reads taken t₁ ∧
          t₁.read = (.notReady, t₂) ∧ d'.transport = some t₂ ∧ d'.buffer = d.buffer ++ taken) ∧
        Wire.frame? d'.buffer = none ∧ Wire.badType? d'.buffer = none := by
  intro d
  have htied := tied_new t
  refine ⟨?_, ?_, htied.countP_isReadError_le rs, ?_, ?_⟩
  · rw [htied.finished_requests_iff]
    exact or_iff_right Bool.false_ne_true
  · exact (htied.requests rs).finished_requests
  · exact perform_of_finished
  · intro d' htry hunfinished
    have hpoll := poll_of_tryNext htry hunfinished
    have hnot : d.poll.1 = .notReady := by rw [hpoll]
    have hreads := exists_reads_of_notReady hnot
    have hincomplete := (incomplete_of_notReady hnot).1
    rw [hpoll] at hreads hincomplete
    exact ⟨hreads, Front.of_eq_incomplete_iff.mp hincomplete⟩

end Demux

end BuildStep
