import BuildStep.Proofs.Stream.Reading

/-!
# Any calls on any transport

A *script* is a transport that comes to an end: chunks of bytes of any sizes, reads that are not
ready and reads that were interrupted, and then the end of file or a failure that lasts.  A
*session* is a sequence of calls on one reader, in whatever order a caller likes to make them.

Some answers only say that it is too early to say anything.  All other answers of a session are, one
after the other, what the bytes of the script call for; neither the cuts nor the calls show in them.

## Key results

- `Demux.perform_step`: a call says nothing yet, or says what comes next
- `Demux.session_eq`: the answers of a session, from any reader on
- `Script.course_transport`: the course of a script is its bytes and its end
- `Script.session_answers`: the answers of a session on a script
-/

namespace BuildStep

/-! ## Scripts -/

/-- What happens on a transport before its end. -/
inductive Script.Event
  /-- Bytes arrive.  They are read in as many pieces as it takes. -/
  | chunk (bs : List UInt8) (nonempty : bs ≠ [])
  /-- A read is not ready. -/
  | notReady
  /-- A read is interrupted. -/
  | interrupted (message : String)

/-- How a transport ends. -/
inductive Script.Close
  | endOfFile
  /-- A read fails, and not by an interruption. -/
  | failure (e : IoError) (lasting : e.isTransient = false)

/-- A transport from its beginning to its end. -/
structure Script where
  events : List Script.Event
  close : Script.Close

namespace Script

/-- The bytes that an event brings. -/
def Event.bytes : Event → List UInt8
  | .chunk bs _ => bs
  | _ => []

/-- The reads that meet an event. -/
def Event.replies : Event → List Reply
  | .chunk bs _ => Reply.ofBytes bs
  | .notReady => [.notReady]
  | .interrupted message => [.failed ⟨.interrupted, message⟩]

/-- The read that meets the end. -/
def Close.reply : Close → Reply
  | .endOfFile => .ended
  | .failure e _ => .failed e

/-- How the transport goes on at its end. -/
def Close.outcome : Close → Outcome
  | .endOfFile => .closed
  | .failure e _ => .failed e

/-- All bytes of a script, in order. -/
def bytes (s : Script) : List UInt8 :=
  s.events.flatMap Event.bytes

/-- The transport that goes through the script. -/
def transport (s : Script) : Transport :=
  ⟨s.events.flatMap Event.replies ++ [s.close.reply], .silent⟩

theorem Close.outcome_ne_silent (c : Close) : c.outcome ≠ .silent := by
  cases c <;> simp [Close.outcome]

theorem course_bytes_cons (ending : Ending) (rest : List Reply) {bs : List UInt8} (h : bs ≠ []) :
    Reply.course ending (.bytes bs :: rest) = (Reply.course ending rest).behind bs := by
  cases bs with
  | nil => exact absurd rfl h
  | cons b bs => rfl

/-- Bytes that are read in pieces are those bytes. -/
theorem course_ofBytes (ending : Ending) (rest : List Reply) {bs : List UInt8} (h : bs ≠ []) :
    Reply.course ending (Reply.ofBytes bs ++ rest) = (Reply.course ending rest).behind bs := by
  fun_induction Reply.ofBytes bs with
  | case1 bs hle => exact course_bytes_cons ending rest h
  | case2 bs hlt ih =>
    -- neither piece is empty, so none of them is taken for the end
    have htake : bs.take Reply.room ≠ [] := by
      simp [List.take_eq_nil_iff, Reply.room, h]
    have hdrop : bs.drop Reply.room ≠ [] := by
      rw [ne_eq, List.drop_eq_nil_iff]
      exact hlt
    rw [List.cons_append, course_bytes_cons ending _ htake, ih hdrop, Course.behind_behind,
      List.take_append_drop]

theorem course_replies (ending : Ending) (rest : List Reply) (e : Event) :
    Reply.course ending (e.replies ++ rest) = (Reply.course ending rest).behind e.bytes := by
  cases e with
  | chunk bs hne => exact course_ofBytes ending rest hne
  | notReady => rfl
  | interrupted message => rfl

theorem course_reply (ending : Ending) (c : Close) :
    Reply.course ending [c.reply] = ⟨[], c.outcome⟩ := by
  cases c with
  | endOfFile => rfl
  | failure e hlasting => simp [Close.reply, Close.outcome, Reply.course, hlasting]

/-- The course of a script is its bytes and its end. -/
theorem course_transport (s : Script) : s.transport.course [] = ⟨s.bytes, s.close.outcome⟩ := by
  rw [Transport.course, transport, bytes, List.append_nil]
  -- the end comes after all events, so the induction is on these alone
  generalize s.events = events
  induction events with
  | nil => exact course_reply _ _
  | cons e events ih =>
    rw [List.flatMap_cons, List.flatMap_cons, List.append_assoc, course_replies, ih]
    rfl

end Script

/-! ## Sessions -/

/-- A way to ask a reader for the next frame. -/
inductive ReadCall
  /-- Waits for an answer. -/
  | next
  /-- Does not wait, and answers that there is no frame if it would have to. -/
  | tryNext
  /-- Asks once. -/
  | poll
deriving DecidableEq, Repr

/-- A call, its answer, and whether the reader was finished then. -/
structure Exchange where
  call : ReadCall
  answer : Answer
  finished : Bool
deriving DecidableEq, Repr

/-- The answer only says that it is too early for one. -/
def Exchange.isTooEarly : Exchange → Bool
  | ⟨.poll, .notReady, _⟩ => true
  | ⟨.tryNext, .ended, false⟩ => true
  | _ => false

theorem Exchange.isTooEarly_poll (a : Answer) (finished : Bool) :
    isTooEarly ⟨.poll, a, finished⟩ = !a.isDecided := by
  cases a <;> rfl

theorem Exchange.isTooEarly_tryNext {a : Answer} {finished : Bool}
    (h : a = .ended → finished = true) : isTooEarly ⟨.tryNext, a, finished⟩ = false := by
  cases a with
  | ended => rw [h rfl]; rfl
  | _ => rfl

/-- Makes a call. -/
def ReadCall.perform (d : Demux) : ReadCall → Answer × Demux
  | .next => d.next
  | .tryNext => d.tryNext
  | .poll => d.poll

/-- Makes calls one after the other. -/
def Demux.session (d : Demux) : List ReadCall → List Exchange
  | [] => []
  | c :: calls =>
    ⟨c, (c.perform d).1, (c.perform d).2.finished⟩ :: session (c.perform d).2 calls

namespace Demux

/-- A reader whose stream is over, or comes to an end. -/
def Ends (d : Demux) : Prop :=
  d.finished = true ∨ d.Reading [] ∧ (d.course []).outcome ≠ .silent

/-- All that a reader has yet to say, in order. -/
def upcoming (d : Demux) (i : Nat) : Answer :=
  if d.finished then .ended else Wire.answers (d.course []).outcome (d.course []).bytes i

variable {d d' : Demux}

theorem upcoming_of_finished (h : d.finished = true) (i : Nat) : d.upcoming i = .ended := by
  rw [upcoming, if_pos h]

theorem upcoming_of_reading (h : d.Reading []) (i : Nat) :
    d.upcoming i = Wire.answers (d.course []).outcome (d.course []).bytes i := by
  simp [upcoming, h.unfinished]

theorem poll_of_finished (h : d.finished = true) : d.poll = (.ended, d) := by
  rw [poll, if_pos h]

theorem next_of_finished (h : d.finished = true) : d.next = (.ended, d) := by
  rw [next, poll_of_finished h]

theorem tryNext_of_finished (h : d.finished = true) : d.tryNext = (.ended, d) := by
  rw [tryNext, poll_of_finished h]

/-- A reader at its end says only that, reads nothing and keeps what is in its buffer. -/
theorem perform_of_finished (h : d.finished = true) (c : ReadCall) : c.perform d = (.ended, d) := by
  cases c with
  | next => exact next_of_finished h
  | tryNext => exact tryNext_of_finished h
  | poll => exact poll_of_finished h

/-- What a call comes to: it was too early for an answer and nothing has changed, or the answer is
the next of those that were to come. -/
inductive Progress (d : Demux) (e : Exchange) (d' : Demux) : Prop
  | tooEarly : e.isTooEarly = true → d'.upcoming = d.upcoming → d'.Ends → Progress d e d'
  | answered : e.isTooEarly = false → e.answer = d.upcoming 0 →
    (∀ i, d'.upcoming i = d.upcoming (i + 1)) → d'.Ends → Progress d e d'

/-- A reader on a script has all answers of the script to come. -/
theorem upcoming_new (s : Script) :
    (new s.transport).upcoming = Wire.answers s.close.outcome s.bytes := by
  funext i
  rw [upcoming, course_new, s.course_transport]
  rfl

/-- A step that decides something gives the next answer. -/
theorem Step.upcoming_of_decided {a : Answer} (h : Step [] d a [] d') (hreading : d.Reading [])
    (houtcome : (d.course []).outcome ≠ .silent) (hdecided : a.isDecided = true) :
    a = d.upcoming 0 ∧ (∀ i, d'.upcoming i = d.upcoming (i + 1)) ∧ d'.Ends := by
  cases h with
  | frame hframe hsame hreading' =>
    obtain ⟨hzero, hsucc⟩ := Wire.answers_of_frame? (d.course []).outcome hframe
    refine ⟨?_, ?_, .inr ⟨hreading', ?_⟩⟩
    · rw [upcoming_of_reading hreading, hzero]
    · intro i
      rw [upcoming_of_reading hreading, upcoming_of_reading hreading', hsucc, hsame]
    · rw [hsame]
      exact houtcome
  | notReady => cases hdecided
  | last hframe hverdict _ hfinished =>
    obtain ⟨hzero, hsucc⟩ := Wire.answers_of_none (d.course []).outcome hframe
    refine ⟨?_, ?_, .inl hfinished⟩
    · rw [upcoming_of_reading hreading, hzero, hverdict]
    · intro i
      rw [upcoming_of_reading hreading, upcoming_of_finished hfinished, hsucc]

/-- A step that decides nothing leaves all answers to come. -/
theorem Step.upcoming_of_notReady (h : Step [] d .notReady [] d') (hreading : d.Reading [])
    (houtcome : (d.course []).outcome ≠ .silent) : d'.upcoming = d.upcoming ∧ d'.Ends := by
  obtain ⟨hcourse, hreading'⟩ := h.of_notReady
  constructor
  · funext i
    rw [upcoming_of_reading hreading, upcoming_of_reading hreading', hcourse]
  · rw [← hcourse] at houtcome
    exact .inr ⟨hreading', houtcome⟩

/-- A step that ends the stream leaves the reader finished. -/
theorem Step.finished_of_ended {coming coming' : List Reply} (h : Step coming d .ended coming' d') :
    d'.finished = true := by
  cases h with
  | last _ _ _ hfinished => exact hfinished

/-- A call that does not wait is a poll, but for what it makes of a transport that is not ready. -/
theorem tryNext_eq (d : Demux) :
    d.tryNext = (if d.poll.1.isDecided then d.poll.1 else .ended, d.poll.2) := by
  unfold tryNext
  split
  · rename_i hpoll
    rw [hpoll]
    rfl
  · rename_i hready
    cases ha : d.poll.1 with
    | notReady => exact (hready d.poll.2 (Prod.ext ha rfl)).elim
    | _ => exact Prod.ext ha rfl

theorem tryNext_of_notReady (h : d.poll = (.notReady, d')) : d.tryNext = (.ended, d') := by
  rw [tryNext_eq, h]
  rfl

theorem tryNext_of_decided (h : d.poll.1.isDecided = true) : d.tryNext = d.poll := by
  rw [tryNext_eq, if_pos h]

/-- Every call says nothing yet, or says what comes next. -/
theorem perform_step (hends : d.Ends) (c : ReadCall) :
    Progress d ⟨c, (c.perform d).1, (c.perform d).2.finished⟩ (c.perform d).2 := by
  obtain hfinished | ⟨hreading, houtcome⟩ := hends
  · -- the stream is over: every call says so, and it is never too early for that
    rw [perform_of_finished hfinished c]
    refine .answered ?_ (upcoming_of_finished hfinished 0).symm ?_ (.inl hfinished)
    · cases c <;> simp [Exchange.isTooEarly, hfinished]
    · intro i
      rw [upcoming_of_finished hfinished, upcoming_of_finished hfinished]
  · have hpoll := poll_step hreading
    cases c with
    | next =>
      -- this transport is never silent for good, so waiting ends with a decision
      obtain ⟨hstep, hdecided⟩ := next_step hreading houtcome
      obtain ⟨hzero, hsucc, hends⟩ := hstep.upcoming_of_decided hreading houtcome hdecided
      exact .answered rfl hzero hsucc hends
    | tryNext =>
      by_cases hdecided : d.poll.1.isDecided = true
      · obtain ⟨hzero, hsucc, hends⟩ := hpoll.upcoming_of_decided hreading houtcome hdecided
        simp only [ReadCall.perform, tryNext_of_decided hdecided]
        -- that there is no frame is an answer only of a reader that is finished
        refine .answered (Exchange.isTooEarly_tryNext ?_) hzero hsucc hends
        intro hended
        rw [hended] at hpoll
        exact hpoll.finished_of_ended
      · have hnot := Answer.eq_notReady_of_not_isDecided hdecided
        rw [hnot] at hpoll
        obtain ⟨hsame, hends⟩ := hpoll.upcoming_of_notReady hreading houtcome
        simp only [ReadCall.perform, tryNext_of_notReady (Prod.ext hnot rfl)]
        refine .tooEarly ?_ hsame hends
        rw [hpoll.of_notReady.2.unfinished]
        rfl
    | poll =>
      by_cases hdecided : d.poll.1.isDecided = true
      · obtain ⟨hzero, hsucc, hends⟩ := hpoll.upcoming_of_decided hreading houtcome hdecided
        refine .answered ?_ hzero hsucc hends
        rw [Exchange.isTooEarly_poll, ReadCall.perform, hdecided]
        rfl
      · have hnot := Answer.eq_notReady_of_not_isDecided hdecided
        rw [hnot] at hpoll
        obtain ⟨hsame, hends⟩ := hpoll.upcoming_of_notReady hreading houtcome
        refine .tooEarly ?_ hsame hends
        rw [Exchange.isTooEarly_poll, ReadCall.perform, hnot]
        rfl

/-- The answers of a session, those apart that come too early, are the first of those to come; every
call that waits has one of them. -/
theorem session_eq (hends : d.Ends) (calls : List ReadCall) :
    ∃ n, calls.count .next ≤ n ∧
      ((d.session calls).filter fun e => !e.isTooEarly).map Exchange.answer =
        (List.range n).map d.upcoming := by
  induction calls generalizing d with
  | nil => exact ⟨0, Nat.le_refl 0, rfl⟩
  | cons c calls ih =>
    rw [session]
    cases perform_step hends c with
    | tooEarly hearly hsame hends' =>
      -- the exchange is dropped, and nothing has changed for those after it
      obtain ⟨n, hcount, hrest⟩ := ih hends'
      refine ⟨n, ?_, ?_⟩
      · have hc : c ≠ .next := by
          rintro rfl
          cases hearly
        rwa [List.count_cons_of_ne hc]
      · rw [List.filter_cons_of_neg (by rw [hearly]; simp), hrest, hsame]
    | answered hkept hzero hsucc hends' =>
      -- the exchange is kept, and those after it continue one place further on
      obtain ⟨n, hcount, hrest⟩ := ih hends'
      refine ⟨n + 1, ?_, ?_⟩
      · rw [List.count_cons]
        split <;> omega
      · rw [List.filter_cons_of_pos (by rw [hkept]; rfl), List.map_cons, hrest,
          List.range_succ_eq_map, List.map_cons, List.map_map, hzero]
        congr 1
        exact List.map_congr_left fun i _ => hsucc i

theorem ends_new (s : Script) : (new s.transport).Ends := by
  refine .inr ⟨⟨rfl, s.transport, rfl, .inr rfl⟩, ?_⟩
  rw [course_new, s.course_transport]
  exact s.close.outcome_ne_silent

end Demux

/-- The answers of a session that do not come too early are the first of `Wire.answers`, which the
bytes and the end of the script determine, whatever the calls and the cuts between the reads. -/
theorem Script.session_answers (s : Script) (calls : List ReadCall) :
    ∃ n, calls.count .next ≤ n ∧
      (((Demux.new s.transport).session calls).filter fun e => !e.isTooEarly).map
          Exchange.answer =
        (List.range n).map (Wire.answers s.close.outcome s.bytes) := by
  obtain ⟨n, hcount, hanswers⟩ := Demux.session_eq (Demux.ends_new s) calls
  refine ⟨n, hcount, ?_⟩
  rw [hanswers, Demux.upcoming_new]

end BuildStep
