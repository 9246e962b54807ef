import BuildStep.Proofs.Stream.Wire

/-!
# What a reader of frames answers

A reader keeps bytes in a buffer, has replies of its transport still to come, and may be asked in
several ways.  None of this shows in its answers: whatever the cuts, the reads that are not ready
and the order of the calls, it says what the bytes of the stream call for, in their order.

The proof follows one quantity, the *course* ahead of a reader: all bytes that it has not handed
over, wherever they are, and how its transport goes on after them.  Asking a reader either takes a
frame off the front of the course, or leaves the course as it is, or ends the stream with the
verdict on the course.

## Key results

- `Transport.course_read_bytes` and its kin: what one read does to the course
- `Demux.poll_step`, `Demux.next_step`: what asking once does to it
- `Demux.readsLeft_poll`: asking again comes to an end
-/

namespace BuildStep

/-! ## The course of a transport -/

/-- The bytes of a transport, and how it goes on after them. -/
structure Course where
  bytes : List UInt8
  outcome : Outcome
deriving DecidableEq, Repr

/-- The course with some bytes before it. -/
def Course.behind (c : Course) (bs : List UInt8) : Course :=
  ⟨bs ++ c.bytes, c.outcome⟩

@[simp] theorem Course.behind_nil (c : Course) : c.behind [] = c := rfl

theorem Course.behind_behind (c : Course) (a b : List UInt8) :
    (c.behind b).behind a = c.behind (a ++ b) := by
  simp [behind]

/-- How a transport goes on that has nothing more to give. -/
def Ending.outcome : Ending → Outcome
  | .closed => .closed
  | .silent => .silent

/-- The course that replies make up.  A read of no bytes and a failure that lasts are the last that
is seen of a transport; a failure that passes, and a read that is not ready, are only repeated. -/
def Reply.course (ending : Ending) : List Reply → Course
  | [] => ⟨[], ending.outcome⟩
  | .bytes [] :: _ => ⟨[], .closed⟩
  | .bytes (b :: bs) :: rest => (course ending rest).behind (b :: bs)
  | .notReady :: rest => course ending rest
  | .failed e :: rest => if e.isTransient then course ending rest else ⟨[], .failed e⟩
  | .ended :: _ => ⟨[], .closed⟩

namespace Transport

/-- The course of a transport that is given more replies after those it has. -/
def course (t : Transport) (coming : List Reply) : Course :=
  Reply.course t.ending (t.replies ++ coming)

/-- The transport can be given these replies: it has not reached an end before them. -/
def Awaits (t : Transport) (coming : List Reply) : Prop :=
  t.ending = .silent ∨ coming = []

variable {t t' : Transport} {coming : List Reply}

theorem ending_read {reply : Reply} (h : t.read = (reply, t')) : t'.ending = t.ending := by
  unfold read at h
  split at h
  · split at h <;> cases h <;> rfl
  all_goals cases h; rfl

theorem Awaits.of_read {reply : Reply} (hawaits : t.Awaits coming) (h : t.read = (reply, t')) :
    t'.Awaits coming := by
  rw [Awaits, ending_read h]
  exact hawaits

/-- A read that gives bytes takes them off the front of the course. -/
theorem course_read_bytes {bs : List UInt8} (h : t.read = (.bytes bs, t')) :
    t.course coming = (t'.course coming).behind bs := by
  unfold read at h
  split at h
  · split at h <;> simp at h
  · simp at h
  · simp at h
  · rename_i reply rest _ hempty heq
    cases h
    cases bs with
    | nil =>
      -- a read of no bytes is answered as the end
      exact (hempty rfl).elim
    | cons b bs => simp [course, heq, Reply.course]

/-- A read that is not ready leaves the course as it is. -/
theorem course_read_notReady (h : t.read = (.notReady, t')) : t'.course coming = t.course coming := by
  unfold read at h
  split at h
  · split at h
    · simp at h
    · cases h; rfl
  · simp at h
  · simp at h
  · rename_i heq
    cases h
    simp [course, heq, Reply.course]

/-- The end of a transport is read at the end of its course. -/
theorem course_read_ended (hawaits : t.Awaits coming) (h : t.read = (.ended, t')) :
    t.course coming = ⟨[], .closed⟩ := by
  unfold read at h
  split at h
  · rename_i hnone
    split at h
    · -- a transport that awaits replies would be silent and not closed
      rename_i hclosed
      obtain hsilent | rfl := hawaits
      · rw [hsilent] at hclosed
        cases hclosed
      · simp [course, hnone, hclosed, Reply.course, Ending.outcome]
    · simp at h
  · rename_i heq
    simp [course, heq, Reply.course]
  · rename_i heq
    simp [course, heq, Reply.course]
  · rename_i hended _ _
    cases h
    exact (hended rfl).elim

/-- A failure that passes leaves the course as it is; one that lasts is its end. -/
theorem course_read_failed {e : IoError} (h : t.read = (.failed e, t')) :
    t.course coming = if e.isTransient then t'.course coming else ⟨[], .failed e⟩ := by
  unfold read at h
  split at h
  · split at h <;> simp at h
  · simp at h
  · simp at h
  · rename_i heq
    cases h
    simp [course, heq, Reply.course]

/-- A read that is not ready uses up a reply, unless the transport is silent for good. -/
theorem length_read_notReady (h : t.read = (.notReady, t')) :
    t'.replies.length < t.replies.length ∨ t' = t ∧ (t.course []).outcome = .silent := by
  unfold read at h
  split at h
  · rename_i hnone
    split at h
    · simp at h
    · rename_i hsilent
      cases h
      right
      simp [course, hnone, hsilent, Reply.course, Ending.outcome]
  · simp at h
  · simp at h
  · rename_i heq
    cases h
    left
    simp [heq]

end Transport

/-! ## One step of a reader -/

theorem Answer.eq_notReady_of_not_isDecided {a : Answer} (h : ¬a.isDecided = true) :
    a = .notReady := by
  cases a with
  | notReady => rfl
  | _ => exact absurd rfl h

namespace Demux

/-- What a reader has not read, when its transport is given more replies after those it has. -/
def unread (d : Demux) (coming : List Reply) : Course :=
  if d.atEnd then ⟨[], .closed⟩
  else
    match d.transport with
    | some t => t.course coming
    | none => ⟨[], .closed⟩

/-- The course ahead of a reader: what is in the buffer, and what it has not read. -/
def course (d : Demux) (coming : List Reply) : Course :=
  (d.unread coming).behind d.buffer

/-- A reader in the middle of a stream. -/
structure Reading (d : Demux) (coming : List Reply) : Prop where
  unfinished : d.finished = false
  transport : ∃ t, d.transport = some t ∧ t.Awaits coming

/-- What one request to a reader may come to: the answer, and the reader after it with the replies
that its transport is still to be given. -/
inductive Step (coming : List Reply) (d : Demux) : Answer → List Reply → Demux → Prop
  /-- A frame is taken off the front of the course. -/
  | frame {f : Frame} {coming' : List Reply} {d' : Demux} :
    Wire.frame? (d.course coming).bytes = some (f, (d'.course coming').bytes) →
    (d'.course coming').outcome = (d.course coming).outcome →
    d'.Reading coming' → Step coming d (.frame f) coming' d'
  /-- Nothing is decided, and the course is as it was. -/
  | notReady {coming' : List Reply} {d' : Demux} :
    d'.course coming' = d.course coming → d'.Reading coming' → Step coming d .notReady coming' d'
  /-- The course has no frame at its front, and the stream ends with the verdict. -/
  | last {a : Answer} {coming' : List Reply} {d' : Demux} :
    Wire.frame? (d.course coming).bytes = none →
    a = Wire.verdict (d.course coming).outcome (d.course coming).bytes →
    a.isDecided = true → d'.finished = true → Step coming d a coming' d'

variable {d d' : Demux} {coming coming' : List Reply}

/-- What a request comes to depends on the reader only through its course. -/
theorem Step.of_course {d₁ : Demux} {coming₁ : List Reply} {a : Answer}
    (h : Step coming₁ d₁ a coming' d') (hcourse : d₁.course coming₁ = d.course coming) :
    Step coming d a coming' d' := by
  cases h with
  | frame hframe houtcome hreading =>
    rw [hcourse] at hframe houtcome
    exact .frame hframe houtcome hreading
  | notReady hsame hreading => exact .notReady (hsame.trans hcourse) hreading
  | last hframe hverdict hdecided hfinished =>
    rw [hcourse] at hframe hverdict
    exact .last hframe hverdict hdecided hfinished

theorem Reading.awaits {t : Transport} (h : d.Reading coming) (ht : d.transport = some t) :
    t.Awaits coming := by
  obtain ⟨t₀, ht₀, hawaits⟩ := h.transport
  rw [ht] at ht₀
  cases ht₀
  exact hawaits

theorem unread_of_atEnd (h : d.atEnd = true) : d.unread coming = ⟨[], .closed⟩ := by
  rw [unread, if_pos h]

theorem course_of_transport {t : Transport} (hend : d.atEnd ≠ true) (h : d.transport = some t) :
    d.course coming = (t.course coming).behind d.buffer := by
  simp [course, unread, hend, h]

/-- The course once some bytes were read, and the transport has changed by that. -/
theorem course_with (coming : List Reply) (t : Transport) (buffer : List UInt8)
    (hend : d.atEnd ≠ true) :
    course { d with transport := some t, buffer := buffer } coming =
      (t.course coming).behind buffer := by
  simp [course, unread, hend]

theorem course_new (t : Transport) (coming : List Reply) :
    (new t).course coming = t.course coming := by
  simp [course, unread, new]

theorem isDecided_endOfStream (buffer : List UInt8) : (endOfStream buffer).isDecided = true := by
  unfold endOfStream
  split
  · rfl
  · split <;> rfl

theorem endOfStream_ne_notReady (buffer : List UInt8) : endOfStream buffer ≠ .notReady := by
  intro h
  have hdecided := isDecided_endOfStream buffer
  rw [h] at hdecided
  cases hdecided

theorem poll_step (h : d.Reading coming) : Step coming d d.poll.1 coming d.poll.2 := by
  fun_induction poll d with
  | case1 d hfinished =>
    rw [h.unfinished] at hfinished
    cases hfinished
  | case2 d hfinished f rest hfront =>
    -- a frame in the buffer is a frame of the course, whatever follows the buffer
    have hframe := Front.of_eq_whole_iff.mp hfront
    exact .frame (Wire.frame?_append _ hframe) rfl ⟨h.unfinished, h.transport⟩
  | case3 d hfinished b hfront =>
    -- neither do later bytes mend a header that tells no stream
    have hbad : Wire.badType? (d.course coming).bytes = some b :=
      Wire.badType?_append _ (Front.of_eq_unknown_iff.mp hfront)
    exact .last (Wire.frame?_of_badType? hbad) (by simp [Wire.verdict, hbad]) rfl rfl
  | case4 d hfinished hfront hend =>
    -- all of the course is in the buffer
    have hcourse : d.course coming = ⟨d.buffer, .closed⟩ := by
      simp [course, unread_of_atEnd hend, Course.behind]
    refine .last ?_ ?_ (isDecided_endOfStream _) rfl
    · rw [hcourse]
      exact (Front.of_eq_incomplete_iff.mp hfront).1
    · rw [hcourse, Wire.endOfStream_eq_verdict]
  | case5 d hfinished hfront hend ht =>
    -- a reader in the middle of a stream has its transport
    obtain ⟨t, ht', -⟩ := h.transport
    rw [ht] at ht'
    cases ht'
  | case6 d hfinished hfront hend t ht t' hread =>
    refine .notReady ?_ ⟨h.unfinished, t', rfl, (h.awaits ht).of_read hread⟩
    refine (course_with coming t' d.buffer hend).trans ?_
    rw [course_of_transport hend ht, Transport.course_read_notReady hread]
  | case7 d hfinished hfront hend t ht t' hread ih =>
    -- the read only moves the course along: what follows is asked of the same course
    refine (ih ⟨h.unfinished, t', rfl, (h.awaits ht).of_read hread⟩).of_course ?_
    rw [course_of_transport hend ht, Transport.course_read_ended (h.awaits ht) hread, course,
      unread_of_atEnd rfl]
  | case8 d hfinished hfront hend t ht bs t' hread ih =>
    refine (ih ⟨h.unfinished, t', rfl, (h.awaits ht).of_read hread⟩).of_course ?_
    refine (course_with coming t' (d.buffer ++ bs) hend).trans ?_
    rw [course_of_transport hend ht, Transport.course_read_bytes hread, Course.behind_behind]
  | case9 d hfinished hfront hend t ht e t' hread htransient ih =>
    refine (ih ⟨h.unfinished, t', rfl, (h.awaits ht).of_read hread⟩).of_course ?_
    refine (course_with coming t' d.buffer hend).trans ?_
    rw [course_of_transport hend ht, Transport.course_read_failed hread, if_pos htransient]
  | case10 d hfinished hfront hend t ht e t' hread htransient =>
    -- a lasting failure is reported only when the buffer has nothing to say
    obtain ⟨hframe, hbad⟩ := Front.of_eq_incomplete_iff.mp hfront
    have hcourse : d.course coming = ⟨d.buffer, .failed e⟩ := by
      rw [course_of_transport hend ht, Transport.course_read_failed hread, if_neg htransient]
      simp [Course.behind]
    refine .last ?_ ?_ rfl rfl
    · rw [hcourse]
      exact hframe
    · rw [hcourse, Wire.verdict, hbad]

/-- A poll that is not ready has used up a reply, unless the transport is silent for good. -/
theorem readsLeft_poll (h : d.poll = (.notReady, d')) :
    d'.readsLeft < d.readsLeft ∨ d' = d ∧ (d.course []).outcome = .silent := by
  -- a poll that reads on has used up the reply before it
  have reads_on {d₁ d₂ : Demux} (hless : d₂.readsLeft < d₁.readsLeft)
      (ih : d'.readsLeft < d₂.readsLeft ∨ d' = d₂ ∧ (d₂.course []).outcome = .silent) :
      d'.readsLeft < d₁.readsLeft := by
    obtain hlt | ⟨rfl, -⟩ := ih
    · exact Nat.lt_trans hlt hless
    · exact hless
  fun_induction poll d with
  | case4 d hfinished hfront hend =>
    exact absurd (congrArg Prod.fst h) (endOfStream_ne_notReady d.buffer)
  | case6 d hfinished hfront hend t ht t' hread =>
    cases h
    obtain hlt | ⟨rfl, hsilent⟩ := Transport.length_read_notReady hread
    · left
      simp only [readsLeft, ht]
      omega
    · right
      rw [← ht, course_of_transport hend ht]
      exact ⟨rfl, hsilent⟩
  | case7 d hfinished hfront hend t ht t' hread ih =>
    have hle := Transport.length_read_le hread
    refine .inl (reads_on ?_ (ih h))
    simp only [readsLeft, ht, if_neg hend, if_pos]
    omega
  | case8 d hfinished hfront hend t ht bs t' hread ih =>
    have hlt := Transport.length_read_lt hread (by simp) (by simp)
    refine .inl (reads_on ?_ (ih h))
    simp only [readsLeft, ht]
    omega
  | case9 d hfinished hfront hend t ht e t' hread htransient ih =>
    have hlt := Transport.length_read_lt hread (by simp) (by simp)
    refine .inl (reads_on ?_ (ih h))
    simp only [readsLeft, ht]
    omega
  | _ => cases h

/-- A poll that decides nothing leaves no frame in the buffer, and has not seen the end. -/
theorem incomplete_of_notReady {d : Demux} (h : d.poll.1 = .notReady) :
    Front.of d.poll.2.buffer = .incomplete ∧ d.poll.2.atEnd = false := by
  fun_induction poll d with
  | case4 d hfinished hfront hend => exact absurd h (endOfStream_ne_notReady d.buffer)
  | case6 d hfinished hfront hend t ht t' hread => exact ⟨hfront, by simpa using hend⟩
  | case7 d hfinished hfront hend t ht t' hread ih => exact ih h
  | case8 d hfinished hfront hend t ht bs t' hread ih => exact ih h
  | case9 d hfinished hfront hend t ht e t' hread htransient ih => exact ih h
  | _ => cases h

/-- The reader has nothing to say before it has read on. -/
structure MustRead (d : Demux) (t : Transport) : Prop where
  unfinished : ¬d.finished = true
  undecided : Front.of d.buffer = .incomplete
  goesOn : ¬d.atEnd = true
  transport : d.transport = some t

/-- What a reader makes of the next read. -/
theorem MustRead.poll_eq {t t' : Transport} {reply : Reply} (h : d.MustRead t)
    (hread : t.read = (reply, t')) :
    d.poll =
      match reply with
      | .notReady => (.notReady, { d with transport := some t' })
      | .ended => poll { d with transport := some t', atEnd := true }
      | .bytes bs => poll { d with transport := some t', buffer := d.buffer ++ bs }
      | .failed e =>
        if e.isTransient then poll { d with transport := some t' }
        else (.error (.transport e), { d with transport := some t', finished := true }) := by
  obtain ⟨transport, buffer, atEnd, finished⟩ := d
  obtain ⟨hfinished, hfront, hend, ht⟩ := h
  dsimp only at hfinished hfront hend ht
  subst ht
  rw [poll, if_neg hfinished]
  simp only [hfront]
  rw [dif_neg hend]
  -- the read that is met is the one that is known
  split
  all_goals
    rename_i heq
    rw [hread] at heq
    cases heq
    rfl

/-- A step that decides nothing is a reader that goes on with the same course. -/
theorem Step.of_notReady (h : Step coming d .notReady coming' d') :
    d'.course coming' = d.course coming ∧ d'.Reading coming' := by
  cases h with
  | notReady hcourse hreading => exact ⟨hcourse, hreading⟩
  | last _ _ hdecided => cases hdecided

/-- A reader that is asked until its transport is ready always decides. -/
theorem next_step (h : d.Reading []) (houtcome : (d.course []).outcome ≠ .silent) :
    Step [] d d.next.1 [] d.next.2 ∧ d.next.1.isDecided = true := by
  fun_induction next d with
  | case1 d d' hpoll hlt ih =>
    -- the poll used up a reply and left the course, so it is asked again
    have hstep := poll_step h
    rw [hpoll] at hstep
    obtain ⟨hcourse, hreading⟩ := hstep.of_notReady
    rw [← hcourse] at houtcome
    obtain ⟨hnext, hdecided⟩ := ih hreading houtcome
    exact ⟨hnext.of_course hcourse, hdecided⟩
  | case2 d d' hpoll hlt =>
    -- a poll that uses up nothing has found a silent transport
    obtain ⟨-, hsilent⟩ := (readsLeft_poll hpoll).resolve_left hlt
    exact absurd hsilent houtcome
  | case3 d hpoll =>
    refine ⟨poll_step h, ?_⟩
    cases ha : d.poll.1 with
    | notReady => exact (hpoll d.poll.2 (Prod.ext ha rfl)).elim
    | frame f => rfl
    | ended => rfl
    | error e => rfl

end Demux

end BuildStep
