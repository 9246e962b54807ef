import BuildStep.Proofs.Tail.Ahead
import Mathlib.Data.List.TakeWhile
import Mathlib.Data.Nat.Find

/-!
# When the items of a stream arrive

A stream has more to say than its frames: behind them comes its end, or what is wrong with it.  Each
of these items arrives at the first time by which enough of the transport can be read to tell it,
and this time depends on nothing but the replies and their times.  How a reader was fed and asked,
and how often a wait was given up in the middle of a frame, does not matter.

## Key results

- `Course.items_followedBy`: replies that come later change no item
- `Arrives.unique`, `exists_arrives`: an item has one time at which it arrives
- `awaitUntil_timely`: a wait ends with the first item that can be told, and at that time
- `Ahead.await_arrives`, `Ahead.await_misses`, `Ahead.await_told`: what one wait makes of the next
  item
-/

namespace BuildStep

/-! ## Streams that go on -/

/-- Bytes that go on are split where they were split before, and then anew. -/
theorem Wire.split_append (bytes more : List UInt8) :
    split (bytes ++ more) =
      (frames bytes ++ frames (leftover bytes ++ more), leftover (leftover bytes ++ more)) := by
  fun_induction split bytes with
  | case1 bytes f rest hframe ih =>
    rw [split_of_frame? (frame?_append more hframe), ih, frames_of_frame? hframe]
    simp only [leftover, split_of_frame? hframe, List.cons_append]
  | case2 bytes hframe =>
    simp only [frames, leftover, split_of_none hframe, List.nil_append]

/-- More bytes do not change the frames that stand in the bytes before them. -/
theorem Wire.frames_append (bytes more : List UInt8) :
    frames bytes <+: frames (bytes ++ more) := by
  rw [frames, frames, split_append]
  exact List.prefix_append _ _

namespace Course

/-- The course of a transport that goes on as the second course once the first is through.  Nothing
follows an end or a failure. -/
def followedBy (c next : Course) : Course :=
  match c.outcome with
  | .silent => next.behind c.bytes
  | _ => c

theorem behind_followedBy (c next : Course) (bs : List UInt8) :
    (c.behind bs).followedBy next = (c.followedBy next).behind bs := by
  cases houtcome : c.outcome with
  | silent =>
    simp only [followedBy, behind, houtcome]
    rw [List.append_assoc]
  | closed => simp only [followedBy, behind, houtcome]
  | failed e => simp only [followedBy, behind, houtcome]

theorem frames_followedBy (c next : Course) :
    Wire.frames c.bytes <+: Wire.frames (c.followedBy next).bytes := by
  unfold followedBy
  cases c.outcome with
  | silent => exact Wire.frames_append _ _
  | closed => exact List.prefix_refl _
  | failed e => exact List.prefix_refl _

/-- All that can be told about a course: its frames, and the verdict on the rest if it does not hang
on what comes. -/
def items (c : Course) : List Answer :=
  (Wire.frames c.bytes).map .frame ++
    [Wire.verdict c.outcome (Wire.leftover c.bytes)].filter Answer.isDecided

theorem items_of_none {c : Course} (h : Wire.frame? c.bytes = none) :
    c.items = [Wire.verdict c.outcome c.bytes].filter Answer.isDecided := by
  rw [items, Wire.frames, Wire.leftover, Wire.split_of_none h]
  rfl

/-- What is left of a course has its other items. -/
theorem Rest.items_eq {whole rest : Course} {taken : List Frame} (h : whole.Rest taken rest) :
    whole.items = taken.map .frame ++ rest.items := by
  rw [items, items, h.frames, h.leftover, h.outcome, List.map_append, List.append_assoc]

/-- What comes later changes no item that can be told. -/
theorem items_followedBy (c next : Course) : c.items <+: (c.followedBy next).items := by
  unfold followedBy
  cases houtcome : c.outcome with
  | closed => exact List.prefix_refl _
  | failed e => exact List.prefix_refl _
  | silent =>
    -- the frames so far are the first frames of what goes on, and then comes the rest
    have hsplit := Wire.split_append c.bytes next.bytes
    simp only [items, behind, Wire.frames, Wire.leftover, houtcome] at hsplit ⊢
    rw [hsplit, List.map_append, List.append_assoc, List.prefix_append_right_inj]
    cases hbad : Wire.badType? (Wire.split c.bytes).2 with
    | none =>
      -- a silent transport lets nothing be told of the rest
      simp [Wire.verdict, hbad, Answer.isDecided]
    | some b =>
      -- a header that tells no stream is there to stay
      have hbad' := Wire.badType?_append next.bytes hbad
      rw [Wire.split_of_none (Wire.frame?_of_badType? hbad')]
      simp [Wire.verdict, hbad, hbad']

end Course

/-- Replies go on as the replies after them do, unless they come to an end. -/
theorem Reply.course_append (replies more : List Reply) :
    course .silent (replies ++ more) =
      (course .silent replies).followedBy (course .silent more) := by
  fun_induction course .silent replies with
  | case1 => rfl
  | case2 => rfl
  | case3 b bs rest ih =>
    rw [List.cons_append, course, ih, Course.behind_followedBy]
  | case4 rest ih =>
    rw [List.cons_append, course]
    exact ih
  | case5 e rest htransient ih =>
    rw [List.cons_append, course, if_pos htransient]
    exact ih
  | case6 e rest htransient =>
    rw [List.cons_append, course, if_neg htransient]
    rfl
  | case7 => rfl

/-! ## The times of the items -/

namespace Tailer

/-- The replies that a transport has given by some time. -/
def readable (time : Nat) (coming : List Arrival) : List Arrival :=
  coming.takeWhile fun a => a.time ≤ time

variable {time later : Nat} {a : Arrival}

theorem readable_append {fed coming : List Arrival} (h : ∀ a ∈ fed, a.time ≤ time) :
    readable time (fed ++ coming) = fed ++ readable time coming :=
  List.takeWhile_append_of_pos (by simpa using h)

theorem readable_cons_of_le (h : a.time ≤ time) (rest : List Arrival) :
    readable time (a :: rest) = a :: readable time rest :=
  List.takeWhile_cons_of_pos (by simpa using h)

theorem readable_cons_of_lt (h : time < a.time) (rest : List Arrival) :
    readable time (a :: rest) = [] :=
  List.takeWhile_cons_of_neg (by simpa using h)

theorem readable_mono (h : time ≤ later) (arrivals : List Arrival) :
    readable time arrivals <+: readable later arrivals := by
  have hboth : ∀ a : Arrival, (a.time ≤ time ∧ a.time ≤ later) ↔ a.time ≤ time := by
    intro a
    omega
  have htwice : readable time (readable later arrivals) = readable time arrivals := by
    simp only [readable, List.takeWhile_takeWhile, decide_eq_true_eq, hboth]
  rw [← htwice]
  exact List.takeWhile_prefix _

end Tailer

/-- All that can be told about a stream by some time. -/
def Arrival.itemsBy (time : Nat) (arrivals : List Arrival) : List Answer :=
  (course (Tailer.readable time arrivals)).items

/-- What can be told can be told at any later time. -/
theorem Arrival.itemsBy_mono {time later : Nat} (h : time ≤ later) (arrivals : List Arrival) :
    itemsBy time arrivals <+: itemsBy later arrivals := by
  obtain ⟨more, hmore⟩ := Tailer.readable_mono h arrivals
  rw [itemsBy, itemsBy, ← hmore, course, course, List.map_append, Reply.course_append]
  exact Course.items_followedBy _ _

/-- An item of a stream, by its index, arrives: it can be told at this time and not before. -/
structure Arrives (arrivals : List Arrival) (i time : Nat) (item : Answer) : Prop where
  told : (Arrival.itemsBy time arrivals)[i]? = some item
  first : ∀ earlier < time, (Arrival.itemsBy earlier arrivals)[i]? = none

section Arrives

variable {arrivals : List Arrival} {i time : Nat} {item : Answer}

theorem Arrives.told_later (h : Arrives arrivals i time item) {later : Nat}
    (hlater : time ≤ later) :
    (Arrival.itemsBy later arrivals)[i]? = some item := by
  obtain ⟨more, hmore⟩ := Arrival.itemsBy_mono hlater arrivals
  obtain ⟨hi, -⟩ := List.getElem?_eq_some_iff.mp h.told
  rw [← hmore, List.getElem?_append_left hi]
  exact h.told

theorem Arrives.unique {time' : Nat} {item' : Answer} (h : Arrives arrivals i time item)
    (h' : Arrives arrivals i time' item') : time = time' ∧ item = item' := by
  obtain hlt | rfl | hlt := Nat.lt_trichotomy time time'
  · have hnone := h'.first time hlt
    rw [h.told] at hnone
    cases hnone
  · exact ⟨rfl, Option.some.inj (h.told.symm.trans h'.told)⟩
  · have hnone := h.first time' hlt
    rw [h'.told] at hnone
    cases hnone

/-- An item that can be told has arrived. -/
theorem exists_arrives (h : (Arrival.itemsBy time arrivals)[i]? = some item) :
    ∃ arrival ≤ time, Arrives arrivals i arrival item := by
  have hexists : ∃ t, (Arrival.itemsBy t arrivals)[i]?.isSome := ⟨time, by rw [h]; rfl⟩
  have hle : Nat.find hexists ≤ time := Nat.find_min' hexists (by rw [h]; rfl)
  obtain ⟨first, hfirst⟩ := Option.isSome_iff_exists.mp (Nat.find_spec hexists)
  have harrives : Arrives arrivals i (Nat.find hexists) first := by
    refine ⟨hfirst, fun earlier hearlier => ?_⟩
    simpa using Nat.find_min hexists hearlier
  refine ⟨Nat.find hexists, hle, ?_⟩
  -- the item has not changed since it arrived
  obtain rfl : first = item := Option.some.inj ((harrives.told_later hle).symm.trans h)
  exact harrives

end Arrives

/-! ## Waiting for an item -/

namespace Demux

variable {d d' : Demux} {coming coming' : List Reply} {a : Answer}

/-- A reader that decides tells the first item of its course. -/
theorem Step.head?_items (h : Step coming d a coming' d') (hdecided : a.isDecided = true) :
    (d.course coming).items.head? = some a := by
  cases h with
  | frame hframe => rw [Course.items, Wire.frames_of_frame? hframe]; rfl
  | notReady => cases hdecided
  | last hnone hverdict =>
    rw [Course.items_of_none hnone, ← hverdict, List.filter_cons_of_pos hdecided]
    rfl

/-- A reader that could not decide has nothing to tell before it is given something. -/
theorem items_of_notReady (h : d.Open) (hscant : d.Scant) (hnot : d.poll.1 = .notReady) :
    (d.course []).items = [] := by
  obtain ⟨hincomplete, -⟩ := incomplete_of_notReady hnot
  obtain ⟨hframe, hbad⟩ := Front.of_eq_incomplete_iff.mp hincomplete
  rw [course_of_notReady h hscant hnot, Course.items_of_none hframe]
  simp [Wire.verdict, hbad, Answer.isDecided]

end Demux

namespace Tailer

/-- What a reader can tell by some time, with these replies to come. -/
def tellable (d : Demux) (coming : List Arrival) (time : Nat) : List Answer :=
  (d.course ((readable time coming).map Arrival.reply)).items

/-- A wait goes on as long as nothing can be told, and no longer: it ends with the first item, or at
the deadline. -/
structure Timely (deadline now : Nat) (told : Nat → List Answer) (waited : Waited) : Prop where
  since : now ≤ waited.now
  inTime : waited.now ≤ deadline
  nothing : ∀ time, now ≤ time → time < waited.now → told time = []
  decided : waited.answer.isDecided = true → (told waited.now).head? = some waited.answer
  notReady : waited.answer = .notReady → waited.now = deadline ∧ told deadline = []

/-- What a reader can tell does not change before the next reply comes. -/
theorem tellable_of_lt {d : Demux} {a : Arrival} {time : Nat} (h : time < a.time)
    (rest : List Arrival) : tellable d (a :: rest) time = (d.course []).items := by
  rw [tellable, readable_cons_of_lt h, List.map_nil]

/-- A reader that could not decide, and is given its next reply, can tell the same. -/
theorem tellable_feed_poll {d : Demux} {a : Arrival} {time : Nat} (h : d.Open)
    (hnot : d.poll.1 = .notReady) (htime : a.time ≤ time) (rest : List Arrival) :
    tellable (d.poll.2.feed a.reply) rest time = tellable d (a :: rest) time := by
  have hpoll := Demux.poll_step (h.reading (a.reply :: (readable time rest).map Arrival.reply))
  rw [hnot] at hpoll
  obtain ⟨hcourse, hreading⟩ := hpoll.of_notReady
  rw [tellable, Demux.course_feed hreading, hcourse, tellable, readable_cons_of_le htime]
  rfl

/-- A reader that decides at once does not wait. -/
theorem timely_of_decided {deadline now : Nat} (hnow : now ≤ deadline) {d : Demux} (h : d.Open)
    (hdecided : d.poll.1.isDecided = true) (coming left : List Arrival) :
    Timely deadline now (tellable d coming) ⟨d.poll.1, now, d.poll.2, left⟩ where
  since := Nat.le_refl now
  inTime := hnow
  nothing time hle hlt := absurd hlt (Nat.not_lt.mpr hle)
  decided _ := (Demux.poll_step (h.reading _)).head?_items hdecided
  notReady hnot := by
    rw [show d.poll.1 = .notReady from hnot] at hdecided
    cases hdecided

/-- A reader that is given nothing before the deadline waits for it. -/
theorem timely_of_deadline {deadline now : Nat} (hnow : now ≤ deadline) {d : Demux} (h : d.Open)
    (hscant : d.Scant) (hnot : d.poll.1 = .notReady) {coming : List Arrival}
    (hnothing : ∀ time ≤ deadline, tellable d coming time = (d.course []).items)
    (left : List Arrival) :
    Timely deadline now (tellable d coming) ⟨d.poll.1, deadline, d.poll.2, left⟩ := by
  have hitems := Demux.items_of_notReady h hscant hnot
  refine ⟨hnow, Nat.le_refl deadline, fun time _ hlt => ?_, fun hdecided => ?_, fun _ => ?_⟩
  · exact (hnothing time (Nat.le_of_lt hlt)).trans hitems
  · rw [show d.poll.1 = .notReady from hnot] at hdecided
    cases hdecided
  · exact ⟨rfl, (hnothing deadline (Nat.le_refl _)).trans hitems⟩

/-- A wait is timely, however the items are cut and whatever part of one is there. -/
theorem awaitUntil_timely {deadline now : Nat} (hnow : now ≤ deadline) {d : Demux}
    (h : d.Open) (hscant : d.Scant) (coming : List Arrival) :
    Timely deadline now (tellable d coming) (awaitUntil deadline now d coming) := by
  induction coming generalizing now d with
  | nil =>
    simp only [awaitUntil]
    by_cases hdecided : d.poll.1.isDecided = true
    · rw [if_pos hdecided]
      exact timely_of_decided hnow h hdecided [] []
    · -- no reply is to come, so nothing changes up to the deadline
      rw [if_neg hdecided]
      have hnot := Answer.eq_notReady_of_not_isDecided hdecided
      exact timely_of_deadline hnow h hscant hnot (fun _ _ => rfl) []
  | cons a rest ih =>
    simp only [awaitUntil]
    by_cases hdecided : d.poll.1.isDecided = true
    · rw [if_pos hdecided]
      exact timely_of_decided hnow h hdecided _ _
    · rw [if_neg hdecided]
      have hnot := Answer.eq_notReady_of_not_isDecided hdecided
      by_cases htime : a.time ≤ deadline
      · -- nothing can be told before the reply comes, and the wait goes on with it
        rw [if_pos htime]
        obtain ⟨hopen, hscant'⟩ := h.feed_poll hscant hnot a.reply
        have hrest := ih (Nat.max_le.mpr ⟨hnow, htime⟩) hopen hscant'
        obtain ⟨hsince, hreply⟩ := Nat.max_le.mp hrest.since
        refine ⟨hsince, hrest.inTime, fun time hle hlt => ?_, fun hanswer => ?_, fun hanswer => ?_⟩
        · -- up to the reply the reader has what it had, and then what it has with it
          by_cases hearly : time < a.time
          · rw [tellable_of_lt hearly]
            exact Demux.items_of_notReady h hscant hnot
          · rw [← tellable_feed_poll h hnot (Nat.not_lt.mp hearly)]
            exact hrest.nothing time (Nat.max_le.mpr ⟨hle, Nat.not_lt.mp hearly⟩) hlt
        · rw [← tellable_feed_poll h hnot hreply]
          exact hrest.decided hanswer
        · rw [← tellable_feed_poll h hnot htime]
          exact hrest.notReady hanswer
      · -- the reply comes too late to tell anything by the deadline
        rw [if_neg htime]
        refine timely_of_deadline hnow h hscant hnot (fun time hle => ?_) _
        exact tellable_of_lt (Nat.lt_of_le_of_lt hle (Nat.not_le.mp htime)) rest

/-! ## Waiting for the next item of a stream -/

variable {σ : Type} {arrivals : List Arrival} {taken : List Frame} {w w' : Tailer σ}
  {patience : Nat} {answer : Answer}

/-- What can be told about a stream are the frames that were taken, and what the reader can tell. -/
theorem Ahead.itemsBy_eq (h : Ahead arrivals taken w) {time : Nat} (htime : w.now ≤ time) :
    Arrival.itemsBy time arrivals = taken.map .frame ++ tellable w.demux w.coming time := by
  obtain ⟨fed, harrivals, htimes, hrest⟩ := h.fed
  have hfed : ∀ a ∈ fed, a.time ≤ time := fun a ha => Nat.le_trans (htimes a ha) htime
  rw [harrivals, Arrival.itemsBy, readable_append hfed, Arrival.course, List.map_append]
  exact (hrest _).items_eq

/-- A wait of a tailer is timely. -/
theorem Ahead.await_timely (h : Ahead arrivals taken w) (patience : Nat) :
    Timely (w.now + patience) w.now (tellable w.demux w.coming)
      (awaitUntil (w.now + patience) w.now w.demux w.coming) :=
  awaitUntil_timely (Nat.le_add_right w.now patience) h.isOpen (.inl h.emptied) w.coming

/-- The item behind those that were taken can be told as soon as the reader can tell anything. -/
theorem Ahead.itemsBy_getElem? (h : Ahead arrivals taken w) {time : Nat} (htime : w.now ≤ time) :
    (Arrival.itemsBy time arrivals)[taken.length]? = (tellable w.demux w.coming time).head? := by
  rw [h.itemsBy_eq htime, List.getElem?_append_right (by simp), List.length_map, Nat.sub_self,
    List.head?_eq_getElem?]

/-- An item that is waited for is taken when it arrives, or at once if it was there. -/
theorem Ahead.await_arrives (h : Ahead arrivals taken w) (hawait : w.await patience = (answer, w'))
    (hdecided : answer.isDecided = true) :
    ∃ arrival, Arrives arrivals taken.length arrival answer ∧ arrival ≤ w.now + patience ∧
      w'.now = max w.now arrival := by
  have htimely := h.await_timely patience
  have hanswer : (awaitUntil (w.now + patience) w.now w.demux w.coming).answer = answer :=
    congrArg Prod.fst hawait
  have hnow : (awaitUntil (w.now + patience) w.now w.demux w.coming).now = w'.now :=
    congrArg (fun waited => waited.2.now) hawait
  generalize awaitUntil (w.now + patience) w.now w.demux w.coming = waited at htimely hanswer hnow
  subst hanswer
  have htold := htimely.decided hdecided
  rw [← h.itemsBy_getElem? htimely.since] at htold
  obtain ⟨arrival, hle, harrives⟩ := exists_arrives htold
  refine ⟨arrival, harrives, Nat.le_trans hle htimely.inTime, ?_⟩
  -- had it arrived earlier, it could have been told during the wait
  have hnot : ¬max w.now arrival < waited.now := by
    intro hlt
    have hearly := harrives.told_later (Nat.le_max_right w.now arrival)
    rw [h.itemsBy_getElem? (Nat.le_max_left w.now arrival),
      htimely.nothing _ (Nat.le_max_left w.now arrival) hlt] at hearly
    cases hearly
  have hsince := htimely.since
  omega

/-- A wait is in vain if the next item does not arrive in time. -/
theorem Ahead.await_misses (h : Ahead arrivals taken w)
    (hawait : w.await patience = (.notReady, w')) :
    w'.now = w.now + patience ∧
      ∀ arrival item, Arrives arrivals taken.length arrival item → w.now + patience < arrival := by
  have htimely := h.await_timely patience
  obtain ⟨hdeadline, hnothing⟩ := htimely.notReady (congrArg Prod.fst hawait)
  have hnow : (awaitUntil (w.now + patience) w.now w.demux w.coming).now = w'.now :=
    congrArg (fun waited => waited.2.now) hawait
  refine ⟨hnow.symm.trans hdeadline, fun arrival item harrives => Nat.lt_of_not_le fun hle => ?_⟩
  have htold := harrives.told_later hle
  rw [h.itemsBy_getElem? (Nat.le_add_right w.now patience), hnothing] at htold
  cases htold

/-- An item that can be told at once is taken at once. -/
theorem Ahead.await_told {item : Answer} (h : Ahead arrivals taken w)
    (htold : (tellable w.demux w.coming w.now).head? = some item)
    (hawait : w.await patience = (answer, w')) :
    answer.isDecided = true ∧ answer = item ∧ w'.now = w.now := by
  rw [← h.itemsBy_getElem? (Nat.le_refl _)] at htold
  obtain ⟨arrival, hle, harrives⟩ := exists_arrives htold
  by_cases hdecided : answer.isDecided = true
  · obtain ⟨arrival', harrives', -, hnow⟩ := h.await_arrives hawait hdecided
    obtain ⟨rfl, rfl⟩ := harrives.unique harrives'
    exact ⟨hdecided, rfl, by omega⟩
  · cases Answer.eq_notReady_of_not_isDecided hdecided
    have hlate := (h.await_misses hawait).2 arrival _ harrives
    omega

end Tailer

end BuildStep
