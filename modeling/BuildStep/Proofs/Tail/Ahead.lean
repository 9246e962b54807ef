import BuildStep.Proofs.Tail.Awaiting

/-!
# What a tailer has ahead of it

A tailer is given the replies of its transport one after the other, as the time comes.  At any moment
some of them were given, and the frames that were taken are the first frames of what these
make up, whatever will be given after them.  The rest is ahead.

A reader that was given one reply too few to decide has read all there is, so a wait that
goes on has nothing left to take at once.

## Key results

- `Demux.emptied_poll`, `Tailer.awaitUntil_emptied`: all that was given is read before anything is
  waited for
- `Ahead.await_notReady`, `Ahead.await_frame`, `Ahead.await_last`: what waiting does to what is ahead
-/

namespace BuildStep

/-! ## What is left of a course -/

/-- The second course is what is left of the first once some frames were taken off it. -/
structure Course.Rest (whole : Course) (taken : List Frame) (rest : Course) : Prop where
  frames : Wire.frames whole.bytes = taken ++ Wire.frames rest.bytes
  leftover : Wire.leftover rest.bytes = Wire.leftover whole.bytes
  outcome : rest.outcome = whole.outcome

namespace Course

theorem rest_self (c : Course) : c.Rest [] c := ⟨rfl, rfl, rfl⟩

/-- One more frame is taken. -/
theorem Rest.take {whole rest rest' : Course} {taken : List Frame} {f : Frame}
    (h : whole.Rest taken rest) (hframe : Wire.frame? rest.bytes = some (f, rest'.bytes))
    (houtcome : rest'.outcome = rest.outcome) : whole.Rest (taken ++ [f]) rest' where
  frames := by
    rw [h.frames, Wire.frames_of_frame? hframe, List.append_assoc]
    rfl
  leftover := by
    rw [← h.leftover, Wire.leftover, Wire.leftover, Wire.split_of_frame? hframe]
  outcome := houtcome.trans h.outcome

/-- There is no frame to take any more. -/
theorem Rest.of_none {whole rest : Course} {taken : List Frame} (h : whole.Rest taken rest)
    (hframe : Wire.frame? rest.bytes = none) :
    taken = Wire.frames whole.bytes ∧ rest.bytes = Wire.leftover whole.bytes := by
  have hframes := h.frames
  have hleftover := h.leftover
  rw [Wire.frames, Wire.frames, Wire.split_of_none hframe, List.append_nil] at hframes
  rw [Wire.leftover, Wire.split_of_none hframe] at hleftover
  exact ⟨hframes.symm, hleftover⟩

end Course

/-! ## Readers that have read what they were given -/

namespace Demux

/-- A reader in the middle of a stream, whose transport may be given any replies. -/
structure Open (d : Demux) : Prop where
  unfinished : d.finished = false
  silent : ∃ t, d.transport = some t ∧ t.ending = .silent

theorem Open.reading {d : Demux} (h : d.Open) (coming : List Reply) : d.Reading coming := by
  obtain ⟨t, ht, hsilent⟩ := h.silent
  exact ⟨h.unfinished, t, ht, .inl hsilent⟩

theorem open_of_reading {d : Demux} {reply : Reply} {coming : List Reply}
    (h : d.Reading (reply :: coming)) : d.Open := by
  obtain ⟨t, ht, hawaits⟩ := h.transport
  exact ⟨h.unfinished, t, ht, hawaits.resolve_right (List.cons_ne_nil _ _)⟩

/-- All that was given was read, up to the end of the transport if that was among it. -/
def Emptied (d : Demux) : Prop :=
  d.atEnd = true ∨ ∃ t, d.transport = some t ∧ t.replies = []

/-- At most one reply was not read, and only if there is no use in the buffer alone. -/
def Scant (d : Demux) : Prop :=
  d.Emptied ∨ Front.of d.buffer = .incomplete ∧ ∃ t, d.transport = some t ∧ t.replies.length ≤ 1

theorem replies_read {t t' : Transport} {reply : Reply} (hread : t.read = (reply, t'))
    (hend : reply ≠ .ended) (hreplies : t.replies.length ≤ 1) : t'.replies = [] := by
  by_cases hnot : reply = .notReady
  · subst hnot
    unfold Transport.read at hread
    split at hread
    · rename_i hnone
      split at hread
      · cases hread
      · cases hread
        exact hnone
    · cases hread
    · cases hread
    · rename_i heq
      cases hread
      rw [heq, List.length_cons] at hreplies
      exact List.length_eq_zero_iff.mp (Nat.le_zero.mp (Nat.le_of_succ_le_succ hreplies))
  · have hlt := Transport.length_read_lt hread hnot hend
    exact List.length_eq_zero_iff.mp (by omega)

/-- One poll reads all that there is. -/
theorem emptied_poll {d : Demux} (hunfinished : d.finished = false) (h : d.Scant) :
    d.poll.2.Emptied := by
  have hshort : ∀ {d : Demux} {t : Transport}, d.Scant → ¬d.atEnd = true → d.transport = some t →
      t.replies.length ≤ 1 := by
    rintro d t ((hend | ⟨t', ht', hnil⟩) | ⟨-, t', ht', hlength⟩) hnot ht
    · exact absurd hend hnot
    · rw [ht] at ht'
      cases ht'
      rw [hnil]
      exact Nat.zero_le 1
    · rw [ht] at ht'
      cases ht'
      exact hlength
  -- each read takes the one reply that may be left; a frame in the buffer excludes it
  fun_induction poll d with
  | case1 d hfinished =>
    rw [hunfinished] at hfinished
    cases hfinished
  | case2 d hfinished f rest hfront =>
    rcases h with h | ⟨hincomplete, -⟩
    · exact h
    · rw [hincomplete] at hfront
      cases hfront
  | case3 d hfinished b hfront =>
    rcases h with h | ⟨hincomplete, -⟩
    · exact h
    · rw [hincomplete] at hfront
      cases hfront
  | case4 d hfinished hfront hend => exact .inl hend
  | case5 d hfinished hfront hend ht =>
    rcases h with (h | ⟨t, ht', -⟩) | ⟨-, t, ht', -⟩
    · exact absurd h hend
    · rw [ht] at ht'
      cases ht'
    · rw [ht] at ht'
      cases ht'
  | case6 d hfinished hfront hend t ht t' hread =>
    exact .inr ⟨t', rfl, replies_read hread (by simp) (hshort h hend ht)⟩
  | case7 d hfinished hfront hend t ht t' hread ih => exact ih hunfinished (.inl (.inl rfl))
  | case8 d hfinished hfront hend t ht bs t' hread ih =>
    exact ih hunfinished (.inl (.inr ⟨t', rfl, replies_read hread (by simp) (hshort h hend ht)⟩))
  | case9 d hfinished hfront hend t ht e t' hread htransient ih =>
    exact ih hunfinished (.inl (.inr ⟨t', rfl, replies_read hread (by simp) (hshort h hend ht)⟩))
  | case10 d hfinished hfront hend t ht e t' hread htransient =>
    exact .inr ⟨t', rfl, replies_read hread (by simp) (hshort h hend ht)⟩

/-- A step that takes a frame takes it off the front of the course. -/
theorem Step.of_frame {d d' : Demux} {coming coming' : List Reply} {f : Frame}
    (h : Step coming d (.frame f) coming' d') :
    Wire.frame? (d.course coming).bytes = some (f, (d'.course coming').bytes) ∧
      (d'.course coming').outcome = (d.course coming).outcome ∧ d'.Reading coming' := by
  cases h with
  | frame hframe houtcome hreading => exact ⟨hframe, houtcome, hreading⟩
  | last _ hverdict => exact absurd hverdict.symm (Wire.verdict_ne_frame _ _ f)

/-- A reader that could not decide goes on with one reply more. -/
theorem Open.feed_poll {d : Demux} (h : d.Open) (hscant : d.Scant) (hnot : d.poll.1 = .notReady)
    (reply : Reply) : (d.poll.2.feed reply).Open ∧ (d.poll.2.feed reply).Scant := by
  have hpoll := poll_step (h.reading [reply])
  rw [hnot] at hpoll
  obtain ⟨-, hreading⟩ := hpoll.of_notReady
  obtain ⟨t, ht, hsilent⟩ := (open_of_reading hreading).silent
  have hfeed : (d.poll.2.feed reply).transport = some (t.feed reply) := by
    rw [feed, ht]
    rfl
  refine ⟨⟨hreading.unfinished, t.feed reply, hfeed, hsilent⟩, .inr ?_⟩
  obtain ⟨hincomplete, hend⟩ := incomplete_of_notReady hnot
  refine ⟨hincomplete, t.feed reply, hfeed, ?_⟩
  rcases emptied_poll h.unfinished hscant with hatEnd | ⟨t', ht', hreplies⟩
  · rw [hend] at hatEnd
    cases hatEnd
  · rw [ht] at ht'
    cases ht'
    rw [Transport.feed, hreplies]
    exact Nat.le_refl 1

/-- A reader that could not decide has all there is in its buffer, and its transport is silent. -/
theorem course_of_notReady {d : Demux} (h : d.Open) (hscant : d.Scant)
    (hnot : d.poll.1 = .notReady) : d.course [] = ⟨d.poll.2.buffer, .silent⟩ := by
  -- a reply that may still be given shows that the transport has not ended
  have hpoll := poll_step (h.reading [.notReady])
  rw [hnot] at hpoll
  obtain ⟨t, ht, hsilent⟩ := (open_of_reading hpoll.of_notReady.2).silent
  have hpoll := poll_step (h.reading [])
  rw [hnot] at hpoll
  obtain ⟨hcourse, -⟩ := hpoll.of_notReady
  obtain ⟨-, hend⟩ := incomplete_of_notReady hnot
  rw [← hcourse]
  rcases emptied_poll h.unfinished hscant with hatEnd | ⟨t', ht', hreplies⟩
  · rw [hend] at hatEnd
    cases hatEnd
  · rw [ht] at ht'
    cases ht'
    rw [course_of_transport (by simp [hend]) ht, Transport.course, hreplies, hsilent]
    simp [Reply.course, Ending.outcome, Course.behind]

end Demux

namespace Tailer

/-- Before anything is waited for all that was given is read. -/
theorem awaitUntil_emptied {deadline now : Nat} {d : Demux} {coming : List Arrival}
    (h : d.Open) (hscant : d.Scant) : (awaitUntil deadline now d coming).demux.Emptied := by
  induction coming generalizing now d with
  | nil =>
    simp only [awaitUntil]
    exact Demux.emptied_poll h.unfinished hscant
  | cons a rest ih =>
    simp only [awaitUntil]
    split
    · exact Demux.emptied_poll h.unfinished hscant
    · rename_i hdecided
      split
      · obtain ⟨hopen, hscant'⟩ :=
          h.feed_poll hscant (Answer.eq_notReady_of_not_isDecided hdecided) a.reply
        exact ih hopen hscant'
      · exact Demux.emptied_poll h.unfinished hscant

/-! ## The frames that were taken and those ahead -/

variable {σ : Type} {arrivals : List Arrival} {taken : List Frame} {w w' : Tailer σ}
  {patience : Nat}

/-- A tailer in the middle of a stream.  Some replies were given, in time; whatever is given after
those, the frames that were taken are the first of all, and the others are ahead. -/
structure Ahead (arrivals : List Arrival) (taken : List Frame) (w : Tailer σ) : Prop where
  isOpen : w.demux.Open
  emptied : w.demux.Emptied
  fed : ∃ fed, arrivals = fed ++ w.coming ∧ (∀ a ∈ fed, a.time ≤ w.now) ∧
    ∀ more, (Reply.course .silent (fed.map Arrival.reply ++ more)).Rest taken (w.demux.course more)

/-- All that is still to come is among what is ahead. -/
theorem Ahead.rest (h : Ahead arrivals taken w) :
    (Arrival.course arrivals).Rest taken (w.demux.course w.replies) := by
  obtain ⟨fed, harrivals, -, hrest⟩ := h.fed
  have hwhole := hrest w.replies
  rw [replies, ← List.map_append, ← harrivals] at hwhole
  exact hwhole

theorem Ahead.frames_eq (h : Ahead arrivals taken w) :
    taken ++ w.ahead = Wire.frames (Arrival.course arrivals).bytes :=
  h.rest.frames.symm

/-- Only the reader and what is to come matter, and that time does not go back. -/
theorem Ahead.later (h : Ahead arrivals taken w) (hdemux : w'.demux = w.demux)
    (hcoming : w'.coming = w.coming) (hnow : w.now ≤ w'.now) : Ahead arrivals taken w' := by
  obtain ⟨fed, harrivals, htimes, hrest⟩ := h.fed
  refine ⟨hdemux ▸ h.isOpen, hdemux ▸ h.emptied, fed, hcoming ▸ harrivals, ?_, ?_⟩
  · intro a ha
    exact Nat.le_trans (htimes a ha) hnow
  · rw [hdemux]
    exact hrest

theorem ahead_new (log : σ) (arrivals : List Arrival) : Ahead arrivals [] (new log arrivals) := by
  refine ⟨⟨rfl, _, rfl, rfl⟩, .inr ⟨_, rfl, rfl⟩, [], rfl, by simp, ?_⟩
  intro more
  exact Course.rest_self _

/-- What a wait has done to the reader and to the replies. -/
theorem Ahead.exists_fed (h : Ahead arrivals taken w) (patience : Nat) :
    (w.await patience).2.demux.Emptied ∧
      ∃ fed fed', arrivals = (fed ++ fed') ++ (w.await patience).2.coming ∧
        (∀ a ∈ fed ++ fed', a.time ≤ (w.await patience).2.now) ∧
        ∀ more, (Reply.course .silent ((fed ++ fed').map Arrival.reply ++ more)).Rest taken
            (w.demux.course (fed'.map Arrival.reply ++ more)) ∧
          Demux.Step (fed'.map Arrival.reply ++ more) w.demux (w.await patience).1 more
            (w.await patience).2.demux := by
  refine ⟨awaitUntil_emptied h.isOpen (.inl h.emptied), ?_⟩
  obtain ⟨fed, harrivals, htimes, hrest⟩ := h.fed
  obtain ⟨fed', hcoming, hlater, htimes', hstep⟩ :=
    awaitUntil_fed (Nat.le_add_right w.now patience) w.demux w.coming
  refine ⟨fed, fed', ?_, ?_, ?_⟩
  · rw [List.append_assoc, harrivals]
    exact congrArg (fed ++ ·) hcoming
  · intro a ha
    rcases List.mem_append.mp ha with ha | ha
    · exact Nat.le_trans (htimes a ha) hlater
    · exact htimes' a ha
  · intro more
    refine ⟨?_, hstep more (h.isOpen.reading _)⟩
    rw [List.map_append, List.append_assoc]
    exact hrest _

theorem Ahead.await_notReady (h : Ahead arrivals taken w)
    (hawait : w.await patience = (.notReady, w')) : Ahead arrivals taken w' := by
  obtain ⟨hemptied, fed, fed', harrivals, htimes, hsteps⟩ := h.exists_fed patience
  rw [hawait] at hemptied harrivals htimes hsteps
  have hgoes : ∀ more, w'.demux.course more = w.demux.course (fed'.map Arrival.reply ++ more) ∧
      w'.demux.Reading more := fun more => (hsteps more).2.of_notReady
  refine ⟨Demux.open_of_reading (hgoes [.notReady]).2, hemptied, fed ++ fed', harrivals, htimes, ?_⟩
  intro more
  rw [(hgoes more).1]
  exact (hsteps more).1

/-- A frame that is waited for is taken off what is ahead. -/
theorem Ahead.await_frame {f : Frame} (h : Ahead arrivals taken w)
    (hawait : w.await patience = (.frame f, w')) : Ahead arrivals (taken ++ [f]) w' := by
  obtain ⟨hemptied, fed, fed', harrivals, htimes, hsteps⟩ := h.exists_fed patience
  rw [hawait] at hemptied harrivals htimes hsteps
  have hgoes : ∀ more, Wire.frame? (w.demux.course (fed'.map Arrival.reply ++ more)).bytes =
        some (f, (w'.demux.course more).bytes) ∧
      (w'.demux.course more).outcome = (w.demux.course (fed'.map Arrival.reply ++ more)).outcome ∧
      w'.demux.Reading more := fun more => (hsteps more).2.of_frame
  refine ⟨Demux.open_of_reading (hgoes [.notReady]).2.2, hemptied, fed ++ fed', harrivals, htimes,
    ?_⟩
  intro more
  obtain ⟨hframe, houtcome, -⟩ := hgoes more
  exact (hsteps more).1.take hframe houtcome

/-- An answer that is no frame is the verdict on the stream, all of whose frames were taken. -/
theorem Ahead.await_last {answer : Answer} (h : Ahead arrivals taken w)
    (hawait : w.await patience = (answer, w')) (hframe : ∀ f, answer ≠ .frame f)
    (hdecided : answer ≠ .notReady) :
    taken = Wire.frames (Arrival.course arrivals).bytes ∧
      answer = Wire.verdict (Arrival.course arrivals).outcome
        (Wire.leftover (Arrival.course arrivals).bytes) ∧
      w'.demux.finished = true := by
  have hstep : Demux.Step w.replies w.demux (w.await patience).1 (w.await patience).2.replies
      (w.await patience).2.demux :=
    awaitUntil_step (Nat.le_add_right _ _) (h.isOpen.reading _)
  rw [hawait] at hstep
  have hrest := h.rest
  cases hstep with
  | frame => exact absurd rfl (hframe _)
  | notReady => exact absurd rfl hdecided
  | last hnone hverdict _ hfinished =>
    obtain ⟨htaken, hbytes⟩ := hrest.of_none hnone
    rw [hrest.outcome, hbytes] at hverdict
    exact ⟨htaken, hverdict, hfinished⟩

end Tailer

end BuildStep
