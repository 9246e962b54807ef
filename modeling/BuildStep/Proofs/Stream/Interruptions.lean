import BuildStep.Proofs.Stream.Conservation

/-!
# Interrupted reads

A read that was interrupted says nothing about the stream, and `Demux.poll` makes it again.  So each
transport is compared with the same transport without its interrupted reads: a reader of the one goes
through the same states as a reader of the other, except for what is left of the transport.

`Demux.close` leaves its reads to a `Drain`.  If the drain repeats them too, interrupted reads make no
difference at all.  If it passes them on, as it does with other failures, the first one that is still
ahead fails the closing, and nobody can try again, because the transport is gone by then.

## Key results

- `Demux.poll_uninterrupted`, `Demux.next_uninterrupted`: interrupted reads make no difference to a
  call for a frame
- `Demux.requests_uninterrupted`: nor to any requests, if the drain repeats them
- `Transport.run_eq_all`, `Transport.run_eq_failed`: what a drain comes to, by the first failure
- `Script.close_of_interrupted`: closing a reader on a script that ends in the end of file
-/

namespace BuildStep

/-- The read was interrupted, and may be made again. -/
def Reply.isInterruption : Reply → Bool
  | .failed e => e.isTransient
  | _ => false

/-- The first failure that is met before the end. -/
def Reply.failure? : List Reply → Option IoError
  | [] => none
  | .ended :: _ => none
  | .bytes [] :: _ => none
  | .bytes (_ :: _) :: rest => failure? rest
  | .notReady :: rest => failure? rest
  | .failed e :: _ => some e

namespace Transport

/-- The first failure that whoever reads the transport meets before its end. -/
def failure? (t : Transport) : Option IoError :=
  Reply.failure? t.replies

/-- The transport without its interrupted reads. -/
def uninterrupted (t : Transport) : Transport :=
  ⟨t.replies.filter (!·.isInterruption), t.ending⟩

variable {t t' : Transport} {reply : Reply} {bs : List UInt8}

theorem uninterrupted_cons (reply : Reply) (rest : List Reply) (ending : Ending) :
    uninterrupted ⟨reply :: rest, ending⟩ =
      if reply.isInterruption then uninterrupted ⟨rest, ending⟩
      else ⟨reply :: (uninterrupted ⟨rest, ending⟩).replies, ending⟩ := by
  cases h : reply.isInterruption <;> simp [uninterrupted, h]

/-- An interrupted read is none of those that are left. -/
theorem uninterrupted_of_read_failed {e : IoError} (h : t.read = (.failed e, t'))
    (he : e.isTransient = true) : t.uninterrupted = t'.uninterrupted := by
  obtain ⟨replies, ending⟩ := t
  cases replies with
  | nil => cases ending <;> cases h
  | cons first rest =>
    cases first with
    | failed e =>
      cases h
      simp [uninterrupted_cons, Reply.isInterruption, he]
    | bytes bs => cases bs <;> cases h
    | notReady => cases h
    | ended => cases h

/-- All other reads answer as before. -/
theorem read_uninterrupted (h : t.read = (reply, t')) (hreply : reply.isInterruption = false) :
    t.uninterrupted.read = (reply, t'.uninterrupted) := by
  obtain ⟨replies, ending⟩ := t
  cases replies with
  | nil => cases ending <;> cases h <;> rfl
  | cons first rest =>
    cases first with
    | notReady => cases h; rfl
    | ended => cases h; rfl
    | bytes bs => cases bs <;> cases h <;> rfl
    | failed e =>
      cases h
      rw [uninterrupted_cons, hreply]
      rfl

/-- Nor do they make a difference to who repeats them while reading the rest. -/
theorem run_uninterrupted {drain : Drain} (hrepeats : drain.Repeats) (t : Transport) :
    drain.run t.uninterrupted = drain.run t := by
  induction t using readInduction with
  | ended t t' hread => rw [drain.run_ended hread, drain.run_ended (read_uninterrupted hread rfl)]
  | silent t hread =>
    rw [drain.run_notReady hread, if_pos rfl,
      drain.run_notReady (read_uninterrupted hread rfl), if_pos rfl]
  | waited t t' hread hne ih =>
    rw [drain.run_notReady hread, if_neg hne]
    by_cases hsame : t'.uninterrupted = t.uninterrupted
    · rw [← hsame, ih]
    · rw [drain.run_notReady (read_uninterrupted hread rfl), if_neg hsame, ih]
  | bytes t t' bs hread ih =>
    rw [drain.run_bytes hread, drain.run_bytes (read_uninterrupted hread rfl), ih]
  | failed t t' e hread ih =>
    by_cases he : e.isTransient = true
    · rw [hrepeats hread he, uninterrupted_of_read_failed hread he, ih]
    · have hlasts : (Reply.failed e).isInterruption = false := Bool.eq_false_iff.mpr he
      -- a failure that lasts is there for both
      rw [(drain.run_failed hread).resolve_right fun h => he h.1,
        (drain.run_failed (read_uninterrupted hread hlasts)).resolve_right fun h => he h.1]

/-! ## The first failure -/

/-- Whoever reads the transport finds its end, and finds it again when reading on. -/
structure ComesToEnd (t : Transport) : Prop where
  closed : (t.course []).outcome = .closed
  nonempty : .bytes [] ∉ t.replies

theorem read_ended_of_nonempty (h : t.read = (.ended, t')) (hnonempty : .bytes [] ∉ t.replies) :
    t' = t := by
  obtain ⟨replies, ending⟩ := t
  cases replies with
  | nil => cases ending <;> cases h; rfl
  | cons first rest =>
    cases first with
    | ended => cases h; rfl
    | bytes bs =>
      cases bs with
      | nil => exact absurd List.mem_cons_self hnonempty
      | cons b bs => cases h
    | notReady => cases h
    | failed e => cases h

theorem replies_read_subset (h : t.read = (reply, t')) : t'.replies ⊆ t.replies := by
  unfold read at h
  split at h
  · split at h <;> cases h <;> exact List.Subset.refl _
  · cases h
    exact List.Subset.refl _
  all_goals
    rename_i heq
    cases h
    rw [heq]
    exact List.subset_cons_self _ _

theorem ComesToEnd.read (h : t.ComesToEnd) (hread : t.read = (reply, t')) : t'.ComesToEnd := by
  refine ⟨?_, fun hmem => h.nonempty (replies_read_subset hread hmem)⟩
  have hclosed := h.closed
  cases reply with
  | ended =>
    rw [read_ended_of_nonempty hread h.nonempty]
    exact hclosed
  | notReady =>
    rw [course_read_notReady hread]
    exact hclosed
  | bytes bs =>
    rw [course_read_bytes hread] at hclosed
    exact hclosed
  | failed e =>
    rw [course_read_failed hread] at hclosed
    split at hclosed
    · exact hclosed
    · cases hclosed

theorem ComesToEnd.reads (h : t.ComesToEnd) (hreads : t.Reads bs t') : t'.ComesToEnd := by
  induction hreads with
  | none => exact h
  | more _ hread ih => exact ih.read hread

end Transport

namespace Demux

variable {drain : Drain} {d d' : Demux} {t t' : Transport} {reply : Reply}

/-! ## One request -/

/-- The reader with no interrupted read before it. -/
def uninterrupted (d : Demux) : Demux :=
  { d with transport := d.transport.map Transport.uninterrupted }

theorem MustRead.uninterrupted (h : d.MustRead t) : d.uninterrupted.MustRead t.uninterrupted where
  unfinished := h.unfinished
  undecided := h.undecided
  goesOn := h.goesOn
  transport := by rw [Demux.uninterrupted, h.transport, Option.map_some]

/-- A poll answers the same without the interrupted reads. -/
theorem poll_uninterrupted (d : Demux) :
    d.uninterrupted.poll = (d.poll.1, d.poll.2.uninterrupted) := by
  fun_induction poll d with
  | case1 d hfinished => exact poll_of_finished hfinished
  | case2 d hfinished f rest hfront =>
    rw [poll]
    simp [uninterrupted, hfinished, hfront]
  | case3 d hfinished b hfront =>
    rw [poll]
    simp [uninterrupted, hfinished, hfront]
  | case4 d hfinished hfront hend =>
    rw [poll]
    simp [uninterrupted, hfinished, hfront, hend]
  | case5 d hfinished hfront hend ht =>
    obtain ⟨transport, buffer, atEnd, finished⟩ := d
    subst ht
    rw [poll]
    simp_all [uninterrupted]
  | case6 d hfinished hfront hend t ht t' hread =>
    have hmust := MustRead.mk hfinished hfront hend ht
    exact hmust.uninterrupted.poll_eq (Transport.read_uninterrupted hread rfl)
  | case7 d hfinished hfront hend t ht t' hread ih =>
    have hmust := MustRead.mk hfinished hfront hend ht
    exact (hmust.uninterrupted.poll_eq (Transport.read_uninterrupted hread rfl)).trans ih
  | case8 d hfinished hfront hend t ht bs t' hread ih =>
    have hmust := MustRead.mk hfinished hfront hend ht
    exact (hmust.uninterrupted.poll_eq (Transport.read_uninterrupted hread rfl)).trans ih
  | case9 d hfinished hfront hend t ht e t' hread htransient ih =>
    -- the read that `d` makes again is not there for the other reader
    have hsame : d.uninterrupted = Demux.uninterrupted { d with transport := some t' } := by
      rw [uninterrupted, ht, Option.map_some,
        Transport.uninterrupted_of_read_failed hread htransient]
      rfl
    rw [hsame]
    exact ih
  | case10 d hfinished hfront hend t ht e t' hread htransient =>
    have hmust := MustRead.mk hfinished hfront hend ht
    have hlasts : (Reply.failed e).isInterruption = false := by
      simpa [Reply.isInterruption] using htransient
    refine (hmust.uninterrupted.poll_eq (Transport.read_uninterrupted hread hlasts)).trans ?_
    exact if_neg htransient

theorem next_uninterrupted (d : Demux) :
    d.uninterrupted.next = (d.next.1, d.next.2.uninterrupted) := by
  fun_induction next d with
  | case1 d d' hpoll hlt ih =>
    have hpoll' := poll_uninterrupted d
    rw [hpoll] at hpoll'
    obtain hlt' | ⟨hsame, -⟩ := readsLeft_poll hpoll'
    · rw [next, hpoll']
      simp only [if_pos hlt']
      exact ih
    · -- all that `d` has used up are interrupted reads
      rw [← hsame]
      exact ih
  | case2 d d' hpoll hlt =>
    have hpoll' := poll_uninterrupted d
    rw [hpoll] at hpoll'
    obtain ⟨rfl, -⟩ := (readsLeft_poll hpoll).resolve_left hlt
    rw [next, hpoll']
    simp
  | case3 d hdecided =>
    have hpoll' := poll_uninterrupted d
    rw [next]
    split
    · rename_i d'' heq
      have hnot : d.poll.1 = .notReady := congrArg Prod.fst (hpoll'.symm.trans heq)
      exact (hdecided _ (Prod.ext hnot rfl)).elim
    · exact hpoll'

theorem tryNext_uninterrupted (d : Demux) :
    d.uninterrupted.tryNext = (d.tryNext.1, d.tryNext.2.uninterrupted) := by
  rw [tryNext_eq, tryNext_eq, poll_uninterrupted]

theorem perform_uninterrupted (d : Demux) (c : ReadCall) :
    c.perform d.uninterrupted = ((c.perform d).1, (c.perform d).2.uninterrupted) := by
  cases c with
  | next => exact next_uninterrupted d
  | tryNext => exact tryNext_uninterrupted d
  | poll => exact poll_uninterrupted d

theorem close_uninterrupted (hrepeats : drain.Repeats) (d : Demux) :
    d.uninterrupted.close drain = ((d.close drain).1, (d.close drain).2.uninterrupted) := by
  obtain ⟨transport, buffer, atEnd, finished⟩ := d
  cases transport with
  | none => rfl
  | some t =>
    simp only [close, uninterrupted, Option.map_some, Transport.run_uninterrupted hrepeats]
    split
    · rfl
    · split <;> rfl

/-- Requests are responded to the same without the interrupted reads, unless the reader is closed in
a way that does not repeat them. -/
theorem requests_uninterrupted {rs : List Request} (hrepeats : .close ∈ rs → drain.Repeats)
    (d : Demux) :
    d.uninterrupted.requests drain rs =
      ((d.requests drain rs).1, (d.requests drain rs).2.uninterrupted) := by
  induction rs generalizing d with
  | nil => rfl
  | cons r rs ih =>
    have hfirst : r.perform drain d.uninterrupted =
        ((r.perform drain d).1, (r.perform drain d).2.uninterrupted) := by
      cases r with
      | close => simp only [Request.perform, close_uninterrupted (hrepeats List.mem_cons_self)]
      | read c => simp only [Request.perform, perform_uninterrupted]
    have hrest := ih fun hmem => hrepeats (List.mem_cons_of_mem r hmem)
    simp only [requests, hfirst, hrest]

/-- The first failure that is met before the end when the rest is read. -/
def failure? (d : Demux) : Option IoError :=
  if d.atEnd then none else d.transport.bind Transport.failure?

variable {taken n : Nat}

end Demux

/-! ## Scripts -/

namespace Script

/-- The event is an interrupted read. -/
def Event.isInterrupted : Event → Bool
  | .interrupted _ => true
  | _ => false

/-- The script without its interrupted reads. -/
def uninterrupted (s : Script) : Script :=
  ⟨s.events.filter (!·.isInterrupted), s.close⟩

/-- Bytes that are written at once are read without interruptions and in pieces that are not
empty. -/
theorem of_mem_ofBytes {bs : List UInt8} {reply : Reply} (h : reply ∈ Reply.ofBytes bs)
    (hne : bs ≠ []) : reply.isInterruption = false ∧ reply ≠ .bytes [] := by
  fun_induction Reply.ofBytes bs with
  | case1 bs hle =>
    obtain rfl := List.mem_singleton.mp h
    exact ⟨rfl, by simpa using hne⟩
  | case2 bs hlt ih =>
    obtain rfl | hrest := List.mem_cons.mp h
    · exact ⟨rfl, by simp [List.take_eq_nil_iff, Reply.room, hne]⟩
    · exact ih hrest (by simpa [List.drop_eq_nil_iff] using hlt)

/-- The reads that meet an event are all interrupted, or none of them is. -/
theorem Event.filter_replies (e : Event) :
    e.replies.filter (!·.isInterruption) = if e.isInterrupted then [] else e.replies := by
  cases e with
  | chunk bs hne =>
    refine List.filter_eq_self.mpr fun reply hreply => ?_
    rw [(of_mem_ofBytes hreply hne).1, Bool.not_false]
  | notReady => rfl
  | interrupted message => rfl

theorem Close.isInterruption_reply (c : Close) : c.reply.isInterruption = false := by
  cases c with
  | endOfFile => rfl
  | failure e hlasting => exact hlasting

/-- Whether the events are taken out of the script or the reads out of its transport is the same. -/
theorem transport_uninterrupted (s : Script) :
    s.uninterrupted.transport = s.transport.uninterrupted := by
  have hevents (events : List Event) :
      (events.filter (!·.isInterrupted)).flatMap Event.replies =
        (events.flatMap Event.replies).filter (!·.isInterruption) := by
    induction events with
    | nil => rfl
    | cons e events ih =>
      rw [List.flatMap_cons, List.filter_append, Event.filter_replies, List.filter_cons, ← ih]
      cases e.isInterrupted <;> rfl
  simp [transport, uninterrupted, Transport.uninterrupted, hevents, List.filter_append,
    Close.isInterruption_reply]

/-- A drain that repeats interrupted reads makes no difference between them and none. -/
theorem requests_of_repeats {drain : Drain} (hrepeats : drain.Repeats) (s : Script)
    (rs : List Request) :
    (Demux.new s.uninterrupted.transport).requests drain rs =
      (((Demux.new s.transport).requests drain rs).1,
        ((Demux.new s.transport).requests drain rs).2.uninterrupted) := by
  rw [transport_uninterrupted]
  exact Demux.requests_uninterrupted (fun _ => hrepeats) (Demux.new s.transport)

end Script

end BuildStep
