import BuildStep.Proofs.Stream.Finality

/-!
# Steps that cannot go wrong

A reader takes the size of a header from the length of its buffer, cuts bytes off the buffer, and at
the end of its transport tells a header that is cut short from a payload that is.  It does not look
again whether it may: what it relies on was made sure of by an earlier step or an earlier call.

Here the same reader is written with every such step guarded.  A guard that does not hold stops it.
No calls on any transport ever break one, so the guarded reader is the reader.

## Key results

- `decodeGuarded_eq`, `endGuarded_eq`: the guards of one step hold where the step is taken
- `Demux.LetGo`: a reader without a transport is finished and has nothing in its buffer
- `Demux.pollGuarded_eq`, `Demux.requestsGuarded_eq`: no guard breaks in a poll, nor in a session
- `Demux.guards_hold`: any session, and the numbers in the errors that it answers
-/

namespace BuildStep

/-- What a reader relies on, without looking, did not hold. -/
inductive BrokenGuard
  /-- A number was to be taken from a smaller one. -/
  | underflow
  /-- More bytes were to be cut off than there are. -/
  | overrun
  /-- There was no transport to read. -/
  | noTransport
  /-- At the end of the transport there was still a frame in the buffer, or a header of an unknown
  stream. -/
  | undecided
deriving DecidableEq, Repr

/-! ## Guarded steps -/

/-- Takes a number from one that must not be smaller. -/
def minus (a b : Nat) : Except BrokenGuard Nat :=
  if b ≤ a then .ok (a - b) else .error .underflow

/-- Cuts bytes off the front of some that must be as many. -/
def cutOff (n : Nat) (bytes : List UInt8) : Except BrokenGuard (List UInt8 × List UInt8) :=
  if n ≤ bytes.length then .ok (bytes.take n, bytes.drop n) else .error .overrun

/-- The header at the front of some bytes, which leaves the bytes where they are. -/
def Header.peek (bytes : List UInt8) : Option (Except UInt8 Header) :=
  (Header.read bytes).map (Except.map Prod.fst)

/-- What stands at the front of a buffer: the header is looked at, the length of what follows it is
computed, and only then are the header and the payload cut off. -/
def decodeGuarded (buffer : List UInt8) : Except BrokenGuard Front :=
  match Header.peek buffer with
  | none => .ok .incomplete
  | some (.error b) => .ok (.unknown b)
  | some (.ok h) => do
    let available ← minus buffer.length Header.size
    if available < h.length.toNat then return .incomplete
    let (_, body) ← cutOff Header.size buffer
    let (payload, rest) ← cutOff h.length.toNat body
    return .whole ⟨h.stream, payload⟩ rest

/-- What the bytes left over mean at the end.  The header is looked at once more, but nothing is to be
done any more about one that names no stream. -/
def endGuarded (buffer : List UInt8) : Except BrokenGuard Answer :=
  if (Wire.frame? buffer).isSome || (Wire.badType? buffer).isSome then .error .undecided
  else if buffer.isEmpty then .ok .ended
  else
    match Header.peek buffer with
    | none => .ok (.error (.truncatedHeader buffer.length))
    | some (.error _) => .error .undecided
    | some (.ok h) => do
      let available ← minus buffer.length Header.size
      return .error (.truncatedPayload h.length available)

section Steps

variable {a b n : Nat} {bytes rest : List UInt8} {h : Header}

theorem minus_of_le (hle : b ≤ a) : minus a b = .ok (a - b) :=
  if_pos hle

theorem cutOff_of_le (hle : n ≤ bytes.length) :
    cutOff n bytes = .ok (bytes.take n, bytes.drop n) :=
  if_pos hle

theorem Header.lt_of_read_none (hread : Header.read bytes = none) : bytes.length < 8 := by
  apply Nat.lt_of_not_le
  intro hlen
  obtain ⟨t, r₁, r₂, r₃, a, b, c, d, rest, rfl⟩ := Wire.exists_header hlen
  simp only [Header.read] at hread
  split at hread <;> cases hread

/-- A header that was read leaves what is behind its eight bytes. -/
theorem Header.of_read (hread : Header.read bytes = some (.ok (h, rest))) :
    Header.size ≤ bytes.length ∧ rest = bytes.drop Header.size := by
  by_cases hlen : 8 ≤ bytes.length
  · obtain ⟨t, r₁, r₂, r₃, a, b, c, d, tail, rfl⟩ := Wire.exists_header hlen
    refine ⟨hlen, ?_⟩
    simp only [Header.read] at hread
    split at hread
    · cases hread
      rfl
    · cases hread
  · rw [Header.read_of_short (by omega)] at hread
    cases hread

theorem decodeGuarded_eq (buffer : List UInt8) : decodeGuarded buffer = .ok (Front.of buffer) := by
  unfold decodeGuarded Front.of Header.peek
  cases hread : Header.read buffer with
  | none => rfl
  | some front =>
    cases front with
    | error b => rfl
    | ok front =>
      -- that there is a header is what allows to take its size off, and to cut it off
      obtain ⟨h, rest⟩ := front
      obtain ⟨hsize, rfl⟩ := Header.of_read hread
      simp only [Option.map_some, Except.map, minus_of_le hsize, bind, Except.bind,
        ← List.length_drop]
      by_cases hshort : (buffer.drop Header.size).length < h.length.toNat
      · simp only [if_pos hshort]
        rfl
      · -- and that the payload is all there is what allows to cut that off
        have hpayload : h.length.toNat ≤ (buffer.drop Header.size).length := by omega
        simp only [if_neg hshort, cutOff_of_le hsize, cutOff_of_le hpayload]
        rfl

theorem endGuarded_eq (hincomplete : Front.of bytes = .incomplete) :
    endGuarded bytes = .ok (Demux.endOfStream bytes) := by
  obtain ⟨hframe, hbad⟩ := Front.of_eq_incomplete_iff.mp hincomplete
  rw [endGuarded, hframe, hbad, Demux.endOfStream]
  by_cases hempty : bytes.isEmpty = true
  · simp [hempty]
  · simp only [Option.isSome_none, Bool.or_self, Bool.false_eq_true, if_false, hempty, Header.peek]
    cases hread : Header.read bytes with
    | none => rfl
    | some front =>
      cases front with
      | error b =>
        -- this header would have been answered before the end was reached
        rw [Front.of, hread] at hincomplete
        cases hincomplete
      | ok front =>
        obtain ⟨h, rest⟩ := front
        obtain ⟨hsize, rfl⟩ := Header.of_read hread
        simp only [Option.map_some, Except.map, minus_of_le hsize, bind, Except.bind,
          List.length_drop]
        rfl

end Steps

/-! ## The guarded reader -/

namespace Demux

/-- `poll`, guarded. -/
def pollGuarded (d : Demux) : Except BrokenGuard (Answer × Demux) :=
  if d.finished then .ok (.ended, d)
  else
    match decodeGuarded d.buffer with
    | .error broken => .error broken
    | .ok (.whole f rest) => .ok (.frame f, { d with buffer := rest })
    | .ok (.unknown b) => .ok (.error (.unknownStream b), { d with finished := true })
    | .ok .incomplete =>
      if _hend : d.atEnd then
        (endGuarded d.buffer).map fun answer => (answer, { d with finished := true })
      else
        match _htransport : d.transport with
        | none => .error .noTransport
        | some t =>
          match _hread : t.read with
          | (.notReady, t) => .ok (.notReady, { d with transport := some t })
          | (.ended, t) => pollGuarded { d with transport := some t, atEnd := true }
          | (.bytes bs, t) =>
            pollGuarded { d with transport := some t, buffer := d.buffer ++ bs }
          | (.failed e, t) =>
            if e.isTransient then pollGuarded { d with transport := some t }
            else .ok (.error (.transport e), { d with transport := some t, finished := true })
termination_by d.readsLeft
decreasing_by
  · have hle := Transport.length_read_le _hread
    simp only [readsLeft, _htransport, _hend]
    simp; omega
  · have hlt := Transport.length_read_lt _hread (by simp) (by simp)
    simp only [readsLeft, _htransport, _hend]
    simp; omega
  · have hlt := Transport.length_read_lt _hread (by simp) (by simp)
    simp only [readsLeft, _htransport, _hend]
    simp; omega

/-- `next`, guarded. -/
def nextGuarded (d : Demux) : Except BrokenGuard (Answer × Demux) :=
  match d.pollGuarded with
  | .ok (.notReady, d') =>
    if d'.readsLeft < d.readsLeft then nextGuarded d' else .ok (.notReady, d')
  | answered => answered
termination_by d.readsLeft

/-- `tryNext`, guarded. -/
def tryNextGuarded (d : Demux) : Except BrokenGuard (Answer × Demux) :=
  match d.pollGuarded with
  | .ok (.notReady, d) => .ok (.ended, d)
  | answered => answered

end Demux

/-- Makes a request of a guarded reader.  Closing takes no step that needs a guard. -/
def Request.performGuarded (drain : Drain) (d : Demux) : Request → Except BrokenGuard (Response × Demux)
  | .read .next => d.nextGuarded.map fun (a, d) => (.answer a, d)
  | .read .tryNext => d.tryNextGuarded.map fun (a, d) => (.answer a, d)
  | .read .poll => d.pollGuarded.map fun (a, d) => (.answer a, d)
  | .close => .ok (.release (d.close drain).1, (d.close drain).2)

namespace Demux

/-- Makes requests of a guarded reader, up to the first guard that breaks. -/
def requestsGuarded (drain : Drain) (d : Demux) :
    List Request → Except BrokenGuard (List Response × Demux)
  | [] => .ok ([], d)
  | r :: rest => do
    let (response, d) ← r.performGuarded drain d
    let (responses, d) ← requestsGuarded drain d rest
    return (response :: responses, d)

variable {drain : Drain} {d d' : Demux}

/-! ## Readers without a transport -/

/-- A reader that has let go of its transport is finished and has nothing in its buffer. -/
def LetGo (d : Demux) : Prop :=
  d.transport = none → d.finished = true ∧ d.buffer = []

theorem letGo_new (t : Transport) : (new t).LetGo := by
  intro hnone
  cases hnone

theorem LetGo.poll (h : d.LetGo) : d.poll.2.LetGo := by
  by_cases hnone : d.transport = none
  · rw [poll_of_finished (h hnone).1]
    exact h
  · intro hnone'
    exact absurd hnone' (transport_poll_ne_none hnone)

theorem LetGo.close (h : d.LetGo) : (d.close drain).2.LetGo := by
  unfold Demux.close
  split
  · exact h
  · -- however the closing goes, the buffer is thrown away and the flag is set
    dsimp only
    split
    · exact fun _ => ⟨rfl, rfl⟩
    · split <;> exact fun _ => ⟨rfl, rfl⟩

theorem keptByPolls_letGo : KeptByPolls drain LetGo where
  poll h := h.poll
  close h := h.close

/-! ## No guard fails -/

/-- What a guarded reader makes of the next read. -/
theorem MustRead.pollGuarded_eq {t t' : Transport} {reply : Reply} (h : d.MustRead t)
    (hread : t.read = (reply, t')) :
    d.pollGuarded =
      match reply with
      | .notReady => .ok (.notReady, { d with transport := some t' })
      | .ended => pollGuarded { d with transport := some t', atEnd := true }
      | .bytes bs => pollGuarded { d with transport := some t', buffer := d.buffer ++ bs }
      | .failed e =>
        if e.isTransient then pollGuarded { d with transport := some t' }
        else .ok (.error (.transport e), { d with transport := some t', finished := true }) := by
  obtain ⟨transport, buffer, atEnd, finished⟩ := d
  obtain ⟨hfinished, hfront, hend, ht⟩ := h
  dsimp only at hfinished hfront hend ht
  subst ht
  rw [pollGuarded, if_neg hfinished, decodeGuarded_eq]
  simp only [hfront]
  rw [dif_neg hend]
  split
  all_goals
    rename_i heq
    rw [hread] at heq
    cases heq
    rfl

/-- A poll breaks no guard, unless there is no transport and the reader does not know that it is
finished. -/
theorem pollGuarded_eq (h : d.Tied) : d.pollGuarded = .ok d.poll := by
  -- one case for each way out of a poll; where it reads on, the transport is still there
  fun_induction Demux.poll d with
  | case1 d hfinished => rw [pollGuarded, if_pos hfinished]
  | case2 d hfinished f rest hfront =>
    rw [pollGuarded, if_neg hfinished, decodeGuarded_eq, hfront]
  | case3 d hfinished b hfront => rw [pollGuarded, if_neg hfinished, decodeGuarded_eq, hfront]
  | case4 d hfinished hfront hend =>
    rw [pollGuarded, if_neg hfinished, decodeGuarded_eq]
    simp only [hfront]
    rw [dif_pos hend, endGuarded_eq hfront]
    rfl
  | case5 d hfinished hfront hend ht => exact absurd (h ht) hfinished
  | case6 d hfinished hfront hend t ht t' hread =>
    exact MustRead.pollGuarded_eq ⟨hfinished, hfront, hend, ht⟩ hread
  | case7 d hfinished hfront hend t ht t' hread ih =>
    rw [MustRead.pollGuarded_eq ⟨hfinished, hfront, hend, ht⟩ hread]
    exact ih fun hnone => by cases hnone
  | case8 d hfinished hfront hend t ht bs t' hread ih =>
    rw [MustRead.pollGuarded_eq ⟨hfinished, hfront, hend, ht⟩ hread]
    exact ih fun hnone => by cases hnone
  | case9 d hfinished hfront hend t ht e t' hread htransient ih =>
    rw [MustRead.pollGuarded_eq ⟨hfinished, hfront, hend, ht⟩ hread]
    show (if e.isTransient = true then _ else _) = _
    rw [if_pos htransient]
    exact ih fun hnone => by cases hnone
  | case10 d hfinished hfront hend t ht e t' hread htransient =>
    rw [MustRead.pollGuarded_eq ⟨hfinished, hfront, hend, ht⟩ hread]
    exact if_neg htransient

/-- A reader that has lost its transport in any other way would break one. -/
example : (⟨none, [], false, false⟩ : Demux).pollGuarded = .error .noTransport := by cbv

theorem nextGuarded_eq (h : d.Tied) : d.nextGuarded = .ok d.next := by
  fun_induction Demux.next d with
  | case1 d d' hpoll hlt ih =>
    have hstep := h.poll
    rw [hpoll] at hstep
    rw [nextGuarded, pollGuarded_eq h, hpoll]
    show (if d'.readsLeft < d.readsLeft then _ else _) = _
    rw [if_pos hlt]
    exact ih hstep
  | case2 d d' hpoll hlt =>
    rw [nextGuarded, pollGuarded_eq h, hpoll]
    exact if_neg hlt
  | case3 d hdecided =>
    rw [nextGuarded, pollGuarded_eq h]
    split
    · rename_i d' hpoll
      exact (hdecided d' (Except.ok.inj hpoll)).elim
    · rfl

theorem tryNextGuarded_eq (h : d.Tied) : d.tryNextGuarded = .ok d.tryNext := by
  rw [tryNextGuarded, pollGuarded_eq h, tryNext]
  cases hanswer : d.poll with
  | mk answer d' => cases answer <;> rfl

theorem performGuarded_eq (h : d.Tied) (r : Request) :
    r.performGuarded drain d = .ok (r.perform drain d) := by
  cases r with
  | close => rfl
  | read c =>
    cases c with
    | next => rw [Request.performGuarded, nextGuarded_eq h]; rfl
    | tryNext => rw [Request.performGuarded, tryNextGuarded_eq h]; rfl
    | poll => rw [Request.performGuarded, pollGuarded_eq h]; rfl

theorem requestsGuarded_eq (h : d.Tied) (rs : List Request) :
    d.requestsGuarded drain rs = .ok (d.requests drain rs) := by
  induction rs generalizing d with
  | nil => rfl
  | cons r rs ih =>
    rw [requestsGuarded, performGuarded_eq h]
    show (requestsGuarded drain (r.perform drain d).2 rs >>= _) = _
    rw [ih (h.request drain r)]
    rfl

/-! ## The numbers in the errors -/

/-- The numbers in an error are those of a header or a payload that is cut short. -/
def WellCounted : Answer → Prop
  | .error (.truncatedHeader available) => 1 ≤ available ∧ available ≤ 7
  | .error (.truncatedPayload expected available) => available < expected.toNat
  | _ => True

theorem wellCounted_endOfStream {buffer : List UInt8} (h : Front.of buffer = .incomplete) :
    WellCounted (endOfStream buffer) := by
  rw [endOfStream]
  by_cases hempty : buffer.isEmpty = true
  · rw [if_pos hempty]
    trivial
  · rw [if_neg hempty]
    have hpos : 0 < buffer.length := by
      rw [List.length_pos_iff]
      exact fun hnil => hempty (List.isEmpty_iff.mpr hnil)
    cases hread : Header.read buffer with
    | none =>
      have hshort : buffer.length < 8 := Header.lt_of_read_none hread
      show 1 ≤ buffer.length ∧ buffer.length ≤ 7
      omega
    | some front =>
      rw [Front.of, hread] at h
      cases front with
      | error b => trivial
      | ok front =>
        -- a payload that is all there would have been handed over
        show front.2.length < front.1.length.toNat
        apply Decidable.of_not_not
        intro hlong
        simp only [if_neg hlong] at h
        cases h

theorem wellCounted_poll (d : Demux) : WellCounted d.poll.1 := by
  fun_induction poll d with
  | case4 d hfinished hfront hend => exact wellCounted_endOfStream hfront
  | case7 d hfinished hfront hend t ht t' hread ih => exact ih
  | case8 d hfinished hfront hend t ht bs t' hread ih => exact ih
  | case9 d hfinished hfront hend t ht e t' hread htransient ih => exact ih
  | _ => trivial

theorem wellCounted_next (d : Demux) : WellCounted d.next.1 := by
  fun_induction next d with
  | case1 d d' hpoll hlt ih => exact ih
  | case2 d d' hpoll hlt => trivial
  | case3 d => exact wellCounted_poll d

theorem wellCounted_tryNext (d : Demux) : WellCounted d.tryNext.1 := by
  rw [tryNext]
  split
  · trivial
  · exact wellCounted_poll d

theorem wellCounted_request {a : Answer} {r : Request} (h : (r.perform drain d).1 = .answer a) :
    WellCounted a := by
  cases r with
  | close => cases h
  | read c =>
    cases h
    cases c with
    | next => exact wellCounted_next d
    | tryNext => exact wellCounted_tryNext d
    | poll => exact wellCounted_poll d

theorem wellCounted_requests {a : Answer} {rs : List Request}
    (h : .answer a ∈ (d.requests drain rs).1) : WellCounted a := by
  induction rs generalizing d with
  | nil => cases h
  | cons r rs ih =>
    obtain hfirst | hrest := List.mem_cons.mp h
    · exact wellCounted_request hfirst.symm
    · exact ih hrest

/-- `Demux.requestsGuarded` breaks no guard and answers as `Demux.requests` does.  A reader without
a transport is finished with an empty buffer, and a header or payload is reported as cut short only
if it is. -/
theorem guards_hold (drain : Drain) (t : Transport) (rs : List Request) :
    let d := ((new t).requests drain rs).2
    (d.transport = none → d.finished = true ∧ d.buffer = []) ∧
      (new t).requestsGuarded drain rs = .ok ((new t).requests drain rs) ∧
      (∀ available, .answer (.error (.truncatedHeader available)) ∈ ((new t).requests drain rs).1 →
        1 ≤ available ∧ available ≤ 7) ∧
      ∀ expected available,
        .answer (.error (.truncatedPayload expected available)) ∈ ((new t).requests drain rs).1 →
        available < expected.toNat := by
  intro d
  refine ⟨keptByPolls_letGo.requests (letGo_new t) rs, requestsGuarded_eq (tied_new t) rs, ?_, ?_⟩
  · intro available hmem
    exact wellCounted_requests hmem
  · intro expected available hmem
    exact wellCounted_requests hmem

end Demux

end BuildStep
