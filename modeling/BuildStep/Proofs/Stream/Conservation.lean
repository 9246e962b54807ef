import BuildStep.Proofs.Stream.Session
import Mathlib.Algebra.GroupWithZero.Nat

/-!
# Where the bytes of a transport go

A reader loses no byte and makes none up.  All that it has read is in the frames that it has handed
over or in its buffer, and what ended the reading makes no difference to that.  So when it is closed,
it can say how much of the transport nobody has seen.

Here a transport may be any sequence of replies.  A failure that lasts ends the frames, but not the
transport, which may have more to give to whoever reads the rest.

## Key results

- `Transport.Reads.length_eq`: how many bytes were read does not depend on how
- `Demux.Conserved.perform`: a request moves bytes and loses none
- `Drain.length_of_run`: reading the rest counts all of it
- `Demux.conserved_session`: the account of a session
-/

namespace BuildStep

/-! ## Bytes up to the end -/

/-- The bytes of some replies, up to the first that reports the end. -/
def Reply.untilEnd : List Reply → List UInt8
  | [] => []
  | .ended :: _ => []
  | .bytes [] :: _ => []
  | reply :: rest => reply.content ++ untilEnd rest

namespace Transport

/-- All bytes that a transport has up to its end. -/
def untilEnd (t : Transport) : List UInt8 :=
  Reply.untilEnd t.replies

/-- Reads, one after the other, of a transport: the bytes that they gave, and the transport after
them. -/
inductive Reads (t : Transport) : List UInt8 → Transport → Prop
  | none : Reads t [] t
  | more {bs : List UInt8} {t₁ t₂ : Transport} {reply : Reply} (earlier : Reads t bs t₁)
    (read : t₁.read = (reply, t₂)) : Reads t (bs ++ reply.content) t₂

variable {t t' : Transport} {reply : Reply} {bs : List UInt8}

/-- A read takes what it gives from the front of what is left, whatever it gives. -/
theorem content_eq_of_read (h : t.read = (reply, t')) : t.content = reply.content ++ t'.content := by
  cases reply with
  | bytes bs => exact content_read h
  | notReady => exact (content_read_none h rfl).symm
  | failed e => exact (content_read_none h rfl).symm
  | ended => exact (content_read_none h rfl).symm

theorem Reads.content_eq (h : t.Reads bs t') : t.content = bs ++ t'.content := by
  induction h with
  | none => rfl
  | more _ hread ih => rw [ih, content_eq_of_read hread, List.append_assoc]

/-- How many bytes were read shows in what is left, however the reads went. -/
theorem Reads.length_eq {bs' : List UInt8} (h : t.Reads bs t') (h' : t.Reads bs' t') :
    bs.length = bs'.length := by
  have hsame : bs ++ t'.content = bs' ++ t'.content := h.content_eq.symm.trans h'.content_eq
  rw [List.append_cancel_right hsame]

/-- A read that does not report the end leaves the other bytes up to the end. -/
theorem untilEnd_read (h : t.read = (reply, t')) (hend : reply ≠ .ended) :
    t.untilEnd = reply.content ++ t'.untilEnd := by
  unfold read at h
  split at h
  · split at h
    · cases h
      exact absurd rfl hend
    · cases h
      rfl
  · cases h
    exact absurd rfl hend
  · cases h
    exact absurd rfl hend
  · rename_i hended hempty heq
    cases h
    rw [untilEnd, heq]
    -- the reply is none of the two that report the end
    cases reply with
    | bytes bs =>
      cases bs with
      | nil => exact (hempty rfl).elim
      | cons b bs => rfl
    | notReady => rfl
    | failed e => rfl
    | ended => exact absurd rfl hend

/-- Where the end is reported there are no more bytes before it. -/
theorem untilEnd_read_ended (h : t.read = (.ended, t')) : t.untilEnd = [] := by
  unfold read at h
  split at h
  · rename_i hnone
    rw [untilEnd, hnone]
    rfl
  · rename_i heq
    rw [untilEnd, heq]
    rfl
  · rename_i heq
    rw [untilEnd, heq]
    rfl
  · rename_i hended _ _
    cases h
    exact (hended rfl).elim

end Transport

/-- Reading the rest up to the end counts all of it, in whatever way it is read. -/
theorem Drain.length_of_run (drain : Drain) {t : Transport} {n : Nat} (h : drain.run t = .all n) :
    n = t.untilEnd.length := by
  induction t using Transport.readInduction generalizing n with
  | ended t t' hread =>
    rw [drain.run_ended hread] at h
    cases h
    rw [Transport.untilEnd_read_ended hread, List.length_nil]
  | silent t hread =>
    rw [drain.run_notReady hread, if_pos rfl] at h
    cases h
  | waited t t' hread hne ih =>
    rw [drain.run_notReady hread, if_neg hne] at h
    rw [Transport.untilEnd_read hread (by simp)]
    exact ih h
  | bytes t t' bs hread ih =>
    rw [drain.run_bytes hread] at h
    rw [Transport.untilEnd_read hread (by simp), List.length_append]
    generalize drain.run t' = drained at h ih
    cases drained with
    | all m =>
      cases h
      exact congrArg (bs.length + ·) (ih rfl)
    | failed e => cases h
    | waiting => cases h
  | failed t t' e hread ih =>
    obtain hrun | ⟨-, hrun⟩ := drain.run_failed hread
    · rw [hrun] at h
      cases h
    · rw [Transport.untilEnd_read hread (by simp)]
      exact ih (hrun.symm.trans h)

/-! ## Sessions that may close the reader -/

/-- What may be asked of a reader. -/
inductive Request
  | read (c : ReadCall)
  /-- To read the rest, throw it away and let go of the transport. -/
  | close
deriving DecidableEq, Repr

/-- What a reader says to a request. -/
inductive Response
  | answer (a : Answer)
  | release (r : Release)
deriving DecidableEq, Repr

/-- Number of bytes on the wire that a response hands over. -/
def Response.wireSize : Response → Nat
  | .answer a => a.wireSize
  | .release _ => 0

namespace Request

/-- Makes a request. -/
def perform (drain : Drain) (d : Demux) : Request → Response × Demux
  | .read c => (.answer (c.perform d).1, (c.perform d).2)
  | .close => (.release (d.close drain).1, (d.close drain).2)

/-- What a reader says that has no transport any more. -/
def afterClose : Request → Response
  | .read _ => .answer .ended
  | .close => .release (.discarded 0)

end Request

namespace Demux

/-- Makes requests one after the other. -/
def requests (drain : Drain) (d : Demux) : List Request → List Response × Demux
  | [] => ([], d)
  | r :: rest =>
    ((r.perform drain d).1 :: (requests drain (r.perform drain d).2 rest).1,
      (requests drain (r.perform drain d).2 rest).2)

variable {drain : Drain} {t : Transport} {taken : Nat} {d : Demux}

/-! ## The account of a reader -/

/-- What a reader of `t` has read are the bytes that were taken in frames and those in its buffer, and
the rest of `t` up to its end is what it has not read. -/
def Conserved (t : Transport) (taken : Nat) (d : Demux) : Prop :=
  ∃ t' bs, d.transport = some t' ∧ t.Reads bs t' ∧ bs.length = taken + d.buffer.length ∧
    t.untilEnd = bs ++ if d.atEnd then [] else t'.untilEnd

theorem conserved_new (t : Transport) : Conserved t 0 (new t) :=
  ⟨t, [], rfl, .none, rfl, rfl⟩

/-- A read adds its bytes to the buffer, unless it reports the end. -/
theorem Conserved.read {t₁ t₂ : Transport} {reply : Reply} (h : Conserved t taken d)
    (hend : d.atEnd ≠ true) (ht : d.transport = some t₁) (hread : t₁.read = (reply, t₂))
    (hreply : reply ≠ .ended) :
    Conserved t taken { d with transport := some t₂, buffer := d.buffer ++ reply.content } := by
  obtain ⟨t', bs, ht', hreads, hlength, hrest⟩ := h
  rw [ht] at ht'
  cases ht'
  refine ⟨t₂, _, rfl, hreads.more hread, ?_, ?_⟩
  · rw [List.length_append, List.length_append]
    omega
  · rw [hrest, if_neg hend, if_neg hend, Transport.untilEnd_read hread hreply, List.append_assoc]

theorem Conserved.read_nothing {t₁ t₂ : Transport} {reply : Reply} (h : Conserved t taken d)
    (hend : d.atEnd ≠ true) (ht : d.transport = some t₁) (hread : t₁.read = (reply, t₂))
    (hreply : reply ≠ .ended) (hnothing : reply.content = []) :
    Conserved t taken { d with transport := some t₂ } := by
  have hnext := h.read hend ht hread hreply
  rw [hnothing, List.append_nil] at hnext
  exact hnext

/-- A poll moves bytes from the transport to the buffer and from there to a frame. -/
theorem Conserved.poll (h : Conserved t taken d) :
    Conserved t (taken + d.poll.1.wireSize) d.poll.2 := by
  fun_induction Demux.poll d with
  | case1 d hfinished => exact h
  | case2 d hfinished f rest hfront =>
    -- the frame leaves the buffer
    obtain ⟨t', bs, ht, hreads, hlength, hrest⟩ := h
    have hframe := Front.length_of_whole hfront
    refine ⟨t', bs, ht, hreads, ?_, hrest⟩
    simp only [Answer.wireSize]
    omega
  | case3 d hfinished b hfront => exact h
  | case4 d hfinished hfront hend =>
    rw [wireSize_endOfStream]
    exact h
  | case5 d hfinished hfront hend ht => exact h
  | case6 d hfinished hfront hend t₁ ht t₂ hread =>
    exact h.read_nothing hend ht hread (by simp) rfl
  | case7 d hfinished hfront hend t₁ ht t₂ hread ih =>
    -- from here on nothing of the transport is left to read
    refine ih ?_
    obtain ⟨t', bs, ht', hreads, hlength, hrest⟩ := h
    rw [ht] at ht'
    cases ht'
    refine ⟨t₂, bs ++ [], rfl, hreads.more hread, ?_, ?_⟩
    · rw [List.append_nil]
      exact hlength
    · rw [hrest, if_neg hend, Transport.untilEnd_read_ended hread, if_pos rfl, List.append_nil,
        List.append_nil]
  | case8 d hfinished hfront hend t₁ ht bs t₂ hread ih =>
    exact ih (h.read hend ht hread (by simp))
  | case9 d hfinished hfront hend t₁ ht e t₂ hread htransient ih =>
    exact ih (h.read_nothing hend ht hread (by simp) rfl)
  | case10 d hfinished hfront hend t₁ ht e t₂ hread htransient =>
    exact h.read_nothing hend ht hread (by simp) rfl

theorem Conserved.next (h : Conserved t taken d) :
    Conserved t (taken + d.next.1.wireSize) d.next.2 := by
  fun_induction Demux.next d with
  | case1 d d' hpoll hlt ih =>
    have hstep := h.poll
    rw [hpoll] at hstep
    exact ih hstep
  | case2 d d' hpoll hlt =>
    have hstep := h.poll
    rw [hpoll] at hstep
    exact hstep
  | case3 d => exact h.poll

/-- However a reader is asked, bytes only move. -/
theorem Conserved.perform (h : Conserved t taken d) (c : ReadCall) :
    Conserved t (taken + (c.perform d).1.wireSize) (c.perform d).2 := by
  cases c with
  | next => exact h.next
  | poll => exact h.poll
  | tryNext =>
    have hsize : d.tryNext.1.wireSize = d.poll.1.wireSize := by
      rw [tryNext_eq]
      cases d.poll.1 <;> rfl
    rw [ReadCall.perform, hsize, tryNext_eq]
    exact h.poll

/-- Number of bytes on the wire that responses hand over. -/
def handedOver (responses : List Response) : Nat :=
  (responses.map Response.wireSize).sum

theorem Conserved.requests (h : Conserved t taken d) (drain : Drain) (calls : List ReadCall) :
    Conserved t (taken + handedOver (d.requests drain (calls.map .read)).1)
      (d.requests drain (calls.map .read)).2 := by
  induction calls generalizing d taken with
  | nil => exact h
  | cons c calls ih =>
    have hrest := ih (h.perform c)
    rw [Nat.add_assoc] at hrest
    exact hrest

/-! ## Closing -/

/-- A reader that is closed says how many bytes nobody has seen. -/
theorem Conserved.close {n : Nat} (h : Conserved t taken d)
    (hclose : (d.close drain).1 = .discarded n) :
    taken + n = t.untilEnd.length := by
  obtain ⟨t', bs, ht, -, hlength, hrest⟩ := h
  rw [hrest, List.length_append, hlength]
  rw [Demux.close, ht] at hclose
  dsimp only at hclose
  split at hclose
  · rename_i hend
    cases hclose
    rw [if_pos hend, List.length_nil]
    omega
  · rename_i hend
    rw [if_neg hend]
    split at hclose
    · rename_i count hdrain
      cases hclose
      rw [drain.length_of_run hdrain]
      omega
    · cases hclose
    · cases hclose

/-- Whatever comes of it, a reader that is closed has no transport and is finished. -/
theorem close_released (drain : Drain) (h : d.transport = none → d.finished = true) :
    (d.close drain).2.transport = none ∧ (d.close drain).2.finished = true := by
  unfold close
  split
  · rename_i hnone
    exact ⟨hnone, h hnone⟩
  · dsimp only
    split
    · exact ⟨rfl, rfl⟩
    · split <;> exact ⟨rfl, rfl⟩

/-- A reader without a transport has nothing more to say. -/
theorem requests_of_released (htransport : d.transport = none) (hfinished : d.finished = true)
    (rs : List Request) : d.requests drain rs = (rs.map Request.afterClose, d) := by
  induction rs with
  | nil => rfl
  | cons r rs ih =>
    have hperform : r.perform drain d = (r.afterClose, d) := by
      cases r with
      | close => rw [Request.perform, close, htransport]; rfl
      | read c =>
        rw [Request.perform, perform_of_finished hfinished]
        rfl
    rw [requests, hperform, ih, List.map_cons]

/-- Nothing comes after closing, whatever came of it. -/
theorem Conserved.requests_close (h : Conserved t taken d) (drain : Drain) (later : List Request) :
    ((d.close drain).2.requests drain later).1 = later.map Request.afterClose := by
  obtain ⟨t', -, ht, -⟩ := h
  obtain ⟨htransport, hfinished⟩ := close_released (d := d) drain (by simp [ht])
  rw [requests_of_released htransport hfinished]

/-- After any calls, the bytes that were read are those `handedOver` and those in the buffer.  If
`Demux.close` then reaches the end, it has discarded all others up to `Transport.untilEnd`; after it
every request is answered by `Request.afterClose`. -/
theorem conserved_session (drain : Drain) (t : Transport) (calls : List ReadCall)
    (later : List Request) :
    let frames := handedOver ((new t).requests drain (calls.map .read)).1
    let d := ((new t).requests drain (calls.map .read)).2
    (∃ t', d.transport = some t' ∧ (∃ bs, t.Reads bs t') ∧
        ∀ bs, t.Reads bs t' → bs.length = frames + d.buffer.length) ∧
      (∀ n, (d.close drain).1 = .discarded n → frames + n = t.untilEnd.length) ∧
      ((d.close drain).2.requests drain later).1 = later.map Request.afterClose := by
  intro frames d
  have hconserved : Conserved t frames d := by
    have h := (conserved_new t).requests drain calls
    rw [Nat.zero_add] at h
    exact h
  refine ⟨?_, fun n hclose => hconserved.close hclose, hconserved.requests_close drain later⟩
  obtain ⟨t', bs, ht, hreads, hlength, -⟩ := hconserved
  exact ⟨t', ht, ⟨bs, hreads⟩, fun bs' hreads' => (hreads'.length_eq hreads).trans hlength⟩

end Demux

end BuildStep
