import BuildStep.Proofs.Tail.StopReason
import BuildStep.Proofs.Tail.Timetable

/-!
# The pace of a pass

A pass tries to read without waiting, waits for a while, tries again, and looks at the clock in
between.  All of this comes to one rule about the times at which the items of the stream arrive: as
long as the time of a pass is not used up, the next item is taken at once if it is there, else when
it arrives, unless that takes longer than `drainIdle`.  Bytes of an unfinished frame play no part in
it.

The time is looked at only before an item is waited for.  So a pass may take longer than
`pollInterval`, by one wait.

## Key results

- `Paced.unique`: the rule leaves no choice
- `takeFrames_inTime`, `pass_inTime`: a pass overruns its time by less than one wait, for one frame
- `takeFrames_paced`, `pass_paced`: a pass follows the rule
-/

namespace BuildStep

/-! ## The rule -/

/-- How a pass goes. -/
structure Pace where
  /-- The frames that are taken, each with the time at which it is. -/
  taken : List (Nat × Frame)
  ending : PassEnd
  /-- The time at which the pass ends. -/
  endsAt : Nat
deriving DecidableEq, Repr

/-- How a pass goes on at some time, with so many items of the stream taken before.  An item that
arrives at the very end of the wait for it is still in time. -/
inductive Paced (c : Settings) (arrivals : List Arrival) (started : Nat) : Nat → Nat → Pace → Prop
  /-- The time of the pass is used up. -/
  | timeUp {i clock : Nat} (spent : started + c.pollInterval ≤ clock) :
    Paced c arrivals started i clock ⟨[], .idle, clock⟩
  /-- The next item does not arrive in time. -/
  | idle {i clock : Nat} (left : clock < started + c.pollInterval)
    (late : ∀ arrival item, Arrives arrivals i arrival item → clock + c.drainIdle < arrival) :
    Paced c arrivals started i clock ⟨[], .idle, clock + c.drainIdle⟩
  /-- The next item is a frame, and is taken. -/
  | frame {i clock arrival : Nat} {f : Frame} {p : Pace} (left : clock < started + c.pollInterval)
    (arrives : Arrives arrivals i arrival (.frame f)) (soon : arrival ≤ clock + c.drainIdle)
    (rest : Paced c arrivals started (i + 1) (max clock arrival) p) :
    Paced c arrivals started i clock ⟨(max clock arrival, f) :: p.taken, p.ending, p.endsAt⟩
  /-- The next item is the end of the stream. -/
  | ended {i clock arrival : Nat} (left : clock < started + c.pollInterval)
    (arrives : Arrives arrivals i arrival .ended) (soon : arrival ≤ clock + c.drainIdle) :
    Paced c arrivals started i clock ⟨[], .endOfStream, max clock arrival⟩
  /-- The next item is an error. -/
  | failed {i clock arrival : Nat} {e : DemuxError} (left : clock < started + c.pollInterval)
    (arrives : Arrives arrivals i arrival (.error e)) (soon : arrival ≤ clock + c.drainIdle) :
    Paced c arrivals started i clock ⟨[], .failed (.demux e), max clock arrival⟩

variable {c : Settings} {arrivals : List Arrival} {started i clock : Nat} {p p' : Pace}

/-- The rule leaves no choice. -/
theorem Paced.unique (h : Paced c arrivals started i clock p)
    (h' : Paced c arrivals started i clock p') : p = p' := by
  -- the clock decides whether anything is waited for, and an item arrives once and as one thing
  induction h generalizing p' with
  | timeUp hspent =>
    cases h' with
    | timeUp => rfl
    | _ => omega
  | idle hleft hlate =>
    cases h' with
    | timeUp => omega
    | idle => rfl
    | frame _ harrives hsoon => exact absurd (hlate _ _ harrives) (Nat.not_lt.mpr hsoon)
    | ended _ harrives hsoon => exact absurd (hlate _ _ harrives) (Nat.not_lt.mpr hsoon)
    | failed _ harrives hsoon => exact absurd (hlate _ _ harrives) (Nat.not_lt.mpr hsoon)
  | frame hleft harrives hsoon hrest ih =>
    cases h' with
    | timeUp => omega
    | idle _ hlate => exact absurd (hlate _ _ harrives) (Nat.not_lt.mpr hsoon)
    | frame _ harrives' _ hrest' =>
      obtain ⟨rfl, hitem⟩ := harrives.unique harrives'
      cases hitem
      rw [ih hrest']
    | ended _ harrives' => cases (harrives.unique harrives').2
    | failed _ harrives' => cases (harrives.unique harrives').2
  | ended hleft harrives hsoon =>
    cases h' with
    | timeUp => omega
    | idle _ hlate => exact absurd (hlate _ _ harrives) (Nat.not_lt.mpr hsoon)
    | frame _ harrives' => cases (harrives.unique harrives').2
    | ended _ harrives' => rw [(harrives.unique harrives').1]
    | failed _ harrives' => cases (harrives.unique harrives').2
  | failed hleft harrives hsoon =>
    cases h' with
    | timeUp => omega
    | idle _ hlate => exact absurd (hlate _ _ harrives) (Nat.not_lt.mpr hsoon)
    | frame _ harrives' => cases (harrives.unique harrives').2
    | ended _ harrives' => cases (harrives.unique harrives').2
    | failed _ harrives' =>
      obtain ⟨rfl, hitem⟩ := harrives.unique harrives'
      cases hitem
      rfl

/-! ## The calls of a pass -/

/-- The call that appends a text at some time, if there is any text. -/
def LoggedCall.appending (time : Nat) (t : Text) (succeeded : Bool) : List LoggedCall :=
  if t.isEmpty then [] else [⟨time, .append t, succeeded⟩]

theorem LoggedCall.reverse_appending (time : Nat) (t : Text) (succeeded : Bool) :
    (appending time t succeeded).reverse = appending time t succeeded := by
  unfold appending
  split <;> rfl

namespace Pace

/-- The frames that are taken. -/
def frames (p : Pace) : List Frame :=
  p.taken.map Prod.snd

/-- The calls that append what frames complete, each at the time at which it is taken. -/
def appends (d : TextDecoder) : List (Nat × Frame) → List LoggedCall
  | [] => []
  | (time, f) :: rest =>
    LoggedCall.appending time (d.decode f.stream f.payload).1 true ++
      appends (d.decode f.stream f.payload).2 rest

theorem appends_append (d : TextDecoder) (a b : List (Nat × Frame)) :
    appends d (a ++ b) = appends d a ++ appends (Capture.texts d (a.map Prod.snd)).2 b := by
  induction a generalizing d with
  | nil => rfl
  | cons first a ih =>
    simp only [List.cons_append, appends, ih, List.append_assoc, List.map_cons, Capture.texts]

/-- All calls of a pass in order.  In the end the log is flushed, if any frame was taken. -/
def calls (d : TextDecoder) (p : Pace) : List LoggedCall :=
  appends d p.taken ++ if p.taken.isEmpty then [] else [⟨p.endsAt, .flush, true⟩]

end Pace

namespace Tailer

variable {σ : Type} [LogSink σ] {w w' : Tailer σ} {taken : List Frame}

theorem calls_appendText (w : Tailer σ) (t : Text) :
    (w.appendText t).2.calls =
      LoggedCall.appending w.now t (LogSink.append w.log t).1.isOk ++ w.calls := by
  unfold appendText LoggedCall.appending
  split
  · rfl
  · rfl

/-- A frame that is delivered leaves at most one call behind, and takes no time. -/
theorem deliver_calls (w : Tailer σ) (f : Frame) :
    (w.deliver f).2.now = w.now ∧
      (w.deliver f).2.calls =
        LoggedCall.appending w.now (w.decoder.decode f.stream f.payload).1
          (LogSink.append w.log (w.decoder.decode f.stream f.payload).1).1.isOk ++ w.calls := by
  obtain ⟨result, log, calls, happend, -⟩ := appendText_cases
    { w with decoder := (w.decoder.decode f.stream f.payload).2 }
    (w.decoder.decode f.stream f.payload).1
  have hcalls := calls_appendText { w with decoder := (w.decoder.decode f.stream f.payload).2 }
    (w.decoder.decode f.stream f.payload).1
  rw [happend] at hcalls
  simp only [deliver, happend]
  cases result with
  | ok _ => exact ⟨rfl, hcalls⟩
  | error e => exact ⟨rfl, hcalls⟩

/-! ## How long a pass takes -/

/-- Calls that are made at some time or later. -/
def lateCalls (limit : Nat) (calls : List LoggedCall) : List LoggedCall :=
  calls.filter fun call => limit ≤ call.time

theorem length_lateCalls_cons (limit : Nat) (call : LoggedCall) (calls : List LoggedCall) :
    (lateCalls limit (call :: calls)).length ≤ (lateCalls limit calls).length + 1 := by
  unfold lateCalls
  rw [List.filter_cons]
  split <;> simp

/-- The number of calls that may be late by some time: none before the limit, and one after it. -/
def overdue (limit now : Nat) : Nat :=
  if limit ≤ now then 1 else 0

theorem length_lateCalls_appending (limit time : Nat) (t : Text) (succeeded : Bool) :
    (lateCalls limit (LoggedCall.appending time t succeeded)).length ≤ overdue limit time := by
  unfold lateCalls LoggedCall.appending overdue
  split
  · exact Nat.zero_le _
  · by_cases hlate : limit ≤ time <;> simp [hlate]

omit [LogSink σ] in
theorem awaitUntil_now {deadline now : Nat} (hnow : now ≤ deadline) (d : Demux)
    (coming : List Arrival) :
    now ≤ (awaitUntil deadline now d coming).now ∧
      (awaitUntil deadline now d coming).now ≤ deadline := by
  induction coming generalizing now d with
  | nil =>
    simp only [awaitUntil]
    split <;> omega
  | cons a rest ih =>
    simp only [awaitUntil]
    split
    · exact ⟨Nat.le_refl now, hnow⟩
    split
    · have hlater : max now a.time ≤ deadline := by omega
      have hrest := ih hlater (d.poll.2.feed a.reply)
      omega
    · exact ⟨hnow, Nat.le_refl deadline⟩

omit [LogSink σ] in
/-- A wait takes no longer than it may. -/
theorem await_now {patience : Nat} {answer : Answer} (h : w.await patience = (answer, w')) :
    w.now ≤ w'.now ∧ w'.now ≤ w.now + patience := by
  cases h
  exact awaitUntil_now (Nat.le_add_right w.now patience) w.demux w.coming

/-- From the first tailer to the second a pass overruns its time by less than one wait, and once a
call is late there is no other. -/
structure InTime (c : Settings) (started : Nat) (w w' : Tailer σ) : Prop where
  since : w.now ≤ w'.now
  overrun : w'.now < started + c.pollInterval + c.drainIdle
  calls : ∃ made, w'.calls = made ++ w.calls ∧
    (lateCalls (started + c.pollInterval) made).length + overdue (started + c.pollInterval) w.now ≤
      overdue (started + c.pollInterval) w'.now

variable {c : Settings} {started : Nat} {answer : Answer}

omit [LogSink σ] in
theorem InTime.trans {w₁ w₂ w₃ : Tailer σ} (h : InTime c started w₁ w₂)
    (h' : InTime c started w₂ w₃) : InTime c started w₁ w₃ := by
  obtain ⟨made, hcalls, hlate⟩ := h.calls
  obtain ⟨made', hcalls', hlate'⟩ := h'.calls
  refine ⟨Nat.le_trans h.since h'.since, h'.overrun, made' ++ made, ?_, ?_⟩
  · rw [hcalls', hcalls, List.append_assoc]
  · simp only [lateCalls, List.filter_append, List.length_append] at hlate hlate' ⊢
    omega

omit [LogSink σ] in
theorem inTime_of_await (hleft : ¬started + c.pollInterval ≤ w.now)
    (hawait : w.await c.drainIdle = (answer, w')) : InTime c started w w' := by
  obtain ⟨hsince, hwait⟩ := await_now hawait
  refine ⟨hsince, by omega, [], (await_eq hawait).2.2.2, ?_⟩
  simp [overdue, hleft, lateCalls]

/-- A frame that is waited for and delivered overruns the time by no more than the wait. -/
theorem inTime_of_deliver {waited : Tailer σ} (hleft : ¬started + c.pollInterval ≤ w.now)
    (hawait : w.await c.drainIdle = (answer, waited)) (f : Frame) :
    InTime c started w (waited.deliver f).2 := by
  obtain ⟨hsince, hoverrun, -⟩ := inTime_of_await hleft hawait
  obtain ⟨hnow, hcalls⟩ := waited.deliver_calls f
  rw [(await_eq hawait).2.2.2] at hcalls
  refine ⟨hnow ▸ hsince, hnow ▸ hoverrun, _, hcalls, ?_⟩
  -- there was time left before the wait, so the call is late only if the wait was too long
  rw [overdue, if_neg hleft, hnow]
  exact length_lateCalls_appending _ _ _ _

/-- Taking frames overruns the time of the pass by less than one wait, and at most one frame is
taken in that wait. -/
theorem takeFrames_inTime (any : Bool) (h : w.now < started + c.pollInterval + c.drainIdle) :
    InTime c started w (takeFrames c started any w).2.2 := by
  -- the time is looked at before each wait, so every wait begins in time
  fun_induction takeFrames c started any w with
  | case1 any w hover => exact ⟨Nat.le_refl _, h, [], rfl, Nat.le_of_eq (Nat.zero_add _)⟩
  | case2 any w hover w' hawait => exact inTime_of_await hover hawait
  | case3 any w hover w' hawait => exact inTime_of_await hover hawait
  | case4 any w hover e w' hawait => exact inTime_of_await hover hawait
  | case5 any w hover f waited hawait e w' hdeliver =>
    have hin := inTime_of_deliver hover hawait f
    rw [hdeliver] at hin
    exact hin
  | case6 any w hover f waited hawait delivered hdeliver ih =>
    -- a frame that came too late is the last, since the time is up when it is looked at next
    have hin := inTime_of_deliver hover hawait f
    rw [hdeliver] at hin
    exact hin.trans (ih hin.overrun)

/-- `Tailer.pass` overruns `pollInterval` by less than `drainIdle`, since it looks at the time
before it waits and does not cut the wait short.  At most two of its calls on the log come after
`pollInterval`. -/
theorem pass_inTime (hcheck : c.check = none) (w : Tailer σ) :
    w.now ≤ (w.pass c).2.now ∧ (w.pass c).2.now < w.now + c.pollInterval + c.drainIdle ∧
      ∃ made, (w.pass c).2.calls = made ++ w.calls ∧
        (lateCalls (w.now + c.pollInterval) made).length ≤ 2 := by
  obtain ⟨hidle, hshort, -⟩ := (Settings.check_eq_none_iff c).mp hcheck
  have htaken : InTime c w.now w (takeFrames c w.now false w).2.2 :=
    takeFrames_inTime false (by omega)
  unfold pass
  generalize takeFrames c w.now false w = taking at htaken ⊢
  obtain ⟨ending, any, w₁⟩ := taking
  obtain ⟨hsince, hoverrun, made, hcalls, hmade⟩ := htaken
  have hlate : (lateCalls (w.now + c.pollInterval) made).length ≤ 1 := by
    refine Nat.le_trans (Nat.le_add_right _ _) (Nat.le_trans hmade ?_)
    unfold overdue
    split <;> omega
  cases any with
  | false => exact ⟨hsince, hoverrun, made, hcalls, Nat.le_succ_of_le hlate⟩
  | true =>
    -- flushing takes no time, and is one more call
    obtain ⟨result, log, hflush⟩ := flush_cases w₁
    have hflushed := length_lateCalls_cons (w.now + c.pollInterval)
      ⟨w₁.now, .flush, result.isOk⟩ made
    have hlate' := Nat.le_trans hflushed (Nat.succ_le_succ hlate)
    dsimp only at hcalls ⊢
    rw [hflush]
    cases result with
    | ok _ => exact ⟨hsince, hoverrun, _, by rw [hcalls]; rfl, hlate'⟩
    | error e => exact ⟨hsince, hoverrun, _, by rw [hcalls]; rfl, hlate'⟩

/-- The last of three frames comes with a little time left, so the wait after it is over too late.
-/
theorem pass_inTime_of_three_frames :
    let c : Settings := ⟨10, 5, 10, true⟩
    let w : Tailer MemoryLog := new MemoryLog.new
      [⟨0, .bytes [1, 0, 0, 0, 0, 0, 0, 1, 97]⟩, ⟨4, .bytes [1, 0, 0, 0, 0, 0, 0, 1, 98]⟩,
        ⟨8, .bytes [1, 0, 0, 0, 0, 0, 0, 1, 99]⟩]
    c.check = none ∧ (w.pass c).2.now = 13 ∧ 13 < 10 + 5 ∧
      ∃ made, (w.pass c).2.calls = made ++ w.calls ∧ made.length = 4 ∧
        (lateCalls 10 made).length ≤ 2 := by
  intro c w
  have hcheck : c.check = none := by decide
  have hover : (w.pass c).2.now = 13 := by decide +kernel
  have hcount : (w.pass c).2.calls.length = 4 := by decide +kernel
  obtain ⟨-, hoverrun, made, hcalls, hlate⟩ := pass_inTime hcheck w
  refine ⟨hcheck, hover, ?_, made, hcalls, ?_, hlate⟩
  · rw [hover] at hoverrun
    exact hoverrun
  · rw [hcalls] at hcount
    simpa [w, new] using hcount

/-- A pass may overrun its time. -/
theorem exists_pass_overruns :
    ∃ (c : Settings) (arrivals : List Arrival), c.check = none ∧
      (new MemoryLog.new arrivals).now + c.pollInterval <
        ((new MemoryLog.new arrivals).pass c).2.now :=
  ⟨⟨10, 5, 10, true⟩, [⟨4, .bytes [1, 0, 0, 0, 0, 0, 0, 1, 97]⟩,
    ⟨8, .bytes [1, 0, 0, 0, 0, 0, 0, 1, 98]⟩], by decide, by decide +kernel⟩

/-! ## Passes follow the rule -/

/-- What delivering some frames, each at a time of its own, makes of a tailer. -/
structure Delivered (contents : σ → Text) (isOpen : σ → Prop) (taken : List (Nat × Frame))
    (w w' : Tailer σ) : Prop where
  isOpen : isOpen w'.log
  frames : w'.frames = w.frames + taken.length
  bytes : w'.bytes = w.bytes + Capture.payloadSize (taken.map Prod.snd)
  decoder : w'.decoder = (Capture.texts w.decoder (taken.map Prod.snd)).2
  calls : w'.calls = (Pace.appends w.decoder taken).reverse ++ w.calls
  contents : contents w'.log = contents w.log ++
    (Capture.texts w.decoder (taken.map Prod.snd)).1.flatMap StreamText.text

section Delivered

variable {contents : σ → Text} {isOpen : σ → Prop} {arrivals : List Arrival}
  {taken : List Frame}

omit [LogSink σ] in
theorem Delivered.trans {a b : List (Nat × Frame)} {w₁ w₂ w₃ : Tailer σ}
    (h : Delivered contents isOpen a w₁ w₂) (h' : Delivered contents isOpen b w₂ w₃) :
    Delivered contents isOpen (a ++ b) w₁ w₃ where
  isOpen := h'.isOpen
  frames := by rw [h'.frames, h.frames, List.length_append, Nat.add_assoc]
  bytes := by
    rw [h'.bytes, h.bytes, List.map_append, Capture.payloadSize_append, Nat.add_assoc]
  decoder := by rw [h'.decoder, h.decoder, List.map_append, Capture.texts_append]
  calls := by
    rw [h'.calls, h.calls, h.decoder, Pace.appends_append, List.reverse_append, List.append_assoc]
  contents := by
    rw [h'.contents, h.contents, h.decoder, List.map_append, Capture.texts_append,
      List.flatMap_append, List.append_assoc]

omit [LogSink σ] in
/-- Waiting delivers nothing. -/
theorem delivered_await {patience : Nat} (hopen : isOpen w.log)
    (hawait : w.await patience = (answer, w')) : Delivered contents isOpen [] w w' := by
  cases hawait
  exact ⟨hopen, rfl, rfl, rfl, rfl, (List.append_nil _).symm⟩

/-- A log that takes every text lets every frame be delivered. -/
theorem exists_delivered (hsink : LogSink.Reliable contents isOpen) (hopen : isOpen w.log)
    (f : Frame) :
    ∃ w', w.deliver f = (.ok (), w') ∧ Delivered contents isOpen [(w.now, f)] w w' ∧
      w'.demux = w.demux ∧ w'.coming = w.coming ∧ w'.now = w.now := by
  obtain ⟨log, calls, hdeliver, hcontents, hopen'⟩ := exists_deliver hsink hopen f
  have hcalls := (w.deliver_calls f).2
  have hok := (hsink.append w.log (w.decoder.decode f.stream f.payload).1 hopen).1
  rw [hdeliver, hok] at hcalls
  refine ⟨_, hdeliver, ⟨hopen', rfl, rfl, rfl, ?_, ?_⟩, rfl, rfl, rfl⟩
  · rw [Pace.appends, Pace.appends, List.append_nil, LoggedCall.reverse_appending]
    exact hcalls
  · exact hcontents.trans (congrArg _ (List.append_nil _).symm)

/-- Taking frames follows the rule. -/
theorem takeFrames_paced (hsink : LogSink.Reliable contents isOpen)
    (hahead : Ahead arrivals taken w) (hopen : isOpen w.log) (c : Settings) (started : Nat)
    (any : Bool) :
    ∃ p, Paced c arrivals started taken.length w.now p ∧
      (takeFrames c started any w).1 = p.ending ∧
      (takeFrames c started any w).2.1 = (any || !p.taken.isEmpty) ∧
      (takeFrames c started any w).2.2.now = p.endsAt ∧
      Delivered contents isOpen p.taken w (takeFrames c started any w).2.2 := by
  -- one wait is one line of the rule, since as many items were taken as the reader is behind
  fun_induction takeFrames c started any w generalizing taken with
  | case1 any w hover =>
    -- nothing is waited for any more
    exact ⟨_, .timeUp hover, rfl, (Bool.or_false any).symm, rfl,
      hopen, rfl, rfl, rfl, rfl, (List.append_nil _).symm⟩
  | case2 any w hover w' hawait =>
    obtain ⟨hnow, hlate⟩ := hahead.await_misses hawait
    exact ⟨_, .idle (Nat.not_le.mp hover) hlate, rfl, (Bool.or_false any).symm, hnow,
      delivered_await hopen hawait⟩
  | case3 any w hover w' hawait =>
    obtain ⟨arrival, harrives, hsoon, hnow⟩ := hahead.await_arrives hawait rfl
    exact ⟨_, .ended (Nat.not_le.mp hover) harrives hsoon, rfl, (Bool.or_false any).symm, hnow,
      delivered_await hopen hawait⟩
  | case4 any w hover e w' hawait =>
    obtain ⟨arrival, harrives, hsoon, hnow⟩ := hahead.await_arrives hawait rfl
    exact ⟨_, .failed (Nat.not_le.mp hover) harrives hsoon, rfl, (Bool.or_false any).symm, hnow,
      delivered_await hopen hawait⟩
  | case5 any w hover f waited hawait e w' hdeliver =>
    -- the log takes every frame
    have hwaited : Delivered contents isOpen [] w waited := delivered_await hopen hawait
    obtain ⟨w'', hok, -⟩ := exists_delivered hsink hwaited.isOpen f
    rw [hdeliver] at hok
    cases hok
  | case6 any w hover f waited hawait delivered hdeliver ih =>
    -- the pass goes on at the time at which the frame was taken
    obtain ⟨arrival, harrives, hsoon, hnow⟩ := hahead.await_arrives hawait rfl
    have hwaited : Delivered contents isOpen [] w waited := delivered_await hopen hawait
    obtain ⟨w'', hok, hdelivered, hdemux, hcoming, hnow'⟩ :=
      exists_delivered hsink hwaited.isOpen f
    rw [hdeliver] at hok
    cases hok
    obtain ⟨p, hpaced, hending, hany, hends, hrest⟩ :=
      ih ((hahead.await_frame hawait).later hdemux hcoming (Nat.le_of_eq hnow'.symm))
        hdelivered.isOpen
    rw [List.length_append, hnow', hnow] at hpaced
    rw [hnow] at hdelivered
    exact ⟨_, .frame (Nat.not_le.mp hover) harrives hsoon hpaced, hending,
      hany.trans (by simp), hends, (hwaited.trans hdelivered).trans hrest⟩

end Delivered

/-- The tailer is between two passes of a run: it may have made passes and waited after each of
them. -/
inductive Rested (arrivals : List Arrival) : Tailer σ → Prop
  | new (log : σ) : Rested arrivals (new log arrivals)
  | pass {w : Tailer σ} (rested : Rested arrivals w) (c : Settings)
    (idle : (w.pass c).1 = .idle) : Rested arrivals (w.pass c).2
  | later {w : Tailer σ} {now checks : Nat} (rested : Rested arrivals w) (since : w.now ≤ now) :
    Rested arrivals { w with now := now, checks := checks }

theorem Rested.between {arrivals : List Arrival} (h : Rested arrivals w) :
    ∃ taken, Between arrivals taken w := by
  induction h with
  | new log => exact ⟨[], between_new log arrivals⟩
  | pass _ c idle ih =>
    obtain ⟨taken, hbetween⟩ := ih
    have htaken := pass_taken hbetween.ahead hbetween.accounted hbetween.clean c
    rw [idle] at htaken
    cases htaken with
    | idle ahead accounted clean => exact ⟨_, ahead, accounted, clean rfl⟩
  | later _ since ih =>
    obtain ⟨taken, hbetween⟩ := ih
    exact ⟨taken, hbetween.later since⟩

theorem Rested.pendingStop {arrivals : List Arrival} (h : Rested arrivals w)
    (s : Surroundings) : Rested arrivals (w.pendingStop s).2 := by
  obtain ⟨checks, heq⟩ := pendingStop_eq s w
  rw [heq]
  exact h.later (Nat.le_refl _)

/-- A pass that gives no reason to stop is followed by another one, or by the last one, which both
start between two passes. -/
theorem Rested.firstReason {arrivals : List Arrival} (h : Rested arrivals w) (s : Surroundings)
    (hidle : (w.pass s.settings).1 = .idle) : Rested arrivals (w.firstReason s).2 := by
  have hpass := h.pass s.settings hidle
  unfold Tailer.firstReason
  generalize w.pass s.settings = passed at hpass hidle ⊢
  obtain ⟨ending, w₁⟩ := passed
  cases hidle
  have hbefore := hpass.pendingStop s
  dsimp only at hbefore ⊢
  generalize w₁.pendingStop s = stop at hbefore ⊢
  obtain ⟨reason, w₂⟩ := stop
  cases reason with
  | some reason => exact hbefore
  | none =>
    -- the wait between two passes is over
    have hwaited : Rested arrivals { w₂ with now := wakeTime s w₂.now } :=
      hbefore.later (le_wakeTime s w₂.now)
    exact hwaited.pendingStop s

/-- With a `Reliable` log, `Tailer.pass` goes as `Paced` has it for the items behind those that were
taken, which is the only way it can: what is appended and when, how it ends, and when. -/
theorem pass_paced {contents : σ → Text} {isOpen : σ → Prop} {arrivals : List Arrival}
    (hsink : LogSink.Reliable contents isOpen) (hrested : Rested arrivals w) (hopen : isOpen w.log)
    (c : Settings) :
    ∃ p, Paced c arrivals w.now w.frames w.now p ∧
      (∀ p', Paced c arrivals w.now w.frames w.now p' → p' = p) ∧
      (w.pass c).1 = p.ending ∧ (w.pass c).2.now = p.endsAt ∧
      (w.pass c).2.frames = w.frames + p.taken.length ∧
      (w.pass c).2.bytes = w.bytes + Capture.payloadSize p.frames ∧
      (w.pass c).2.calls = (p.calls w.decoder).reverse ++ w.calls ∧
      contents (w.pass c).2.log =
        contents w.log ++ (Capture.texts w.decoder p.frames).1.flatMap StreamText.text := by
  obtain ⟨taken, hbetween⟩ := hrested.between
  obtain ⟨p, hpaced, hending, hany, hends, hdelivered⟩ :=
    takeFrames_paced hsink hbetween.ahead hopen c w.now false
  rw [← hbetween.accounted.frames] at hpaced
  refine ⟨p, hpaced, fun p' hpaced' => hpaced'.unique hpaced, ?_⟩
  unfold pass
  generalize takeFrames c w.now false w = taking at hending hany hends hdelivered ⊢
  obtain ⟨ending, any, w₁⟩ := taking
  dsimp only at hending hany hends hdelivered
  cases any with
  | false =>
    -- nothing was taken, and nothing is flushed
    have hempty : p.taken.isEmpty = true := by simpa using hany
    refine ⟨hending, hends, hdelivered.frames, hdelivered.bytes, ?_, hdelivered.contents⟩
    rw [Pace.calls, if_pos hempty, List.append_nil]
    exact hdelivered.calls
  | true =>
    have hempty : ¬p.taken.isEmpty = true := by simpa using hany
    obtain ⟨log, hflush, hcontents, -⟩ := exists_flush hsink hdelivered.isOpen
    simp only [hflush]
    refine ⟨hending, hends, hdelivered.frames, hdelivered.bytes, ?_,
      hcontents.trans hdelivered.contents⟩
    rw [Pace.calls, if_neg hempty, List.reverse_append, ← hends]
    exact congrArg (_ :: ·) hdelivered.calls

/-- A frame that comes in pieces, none of them long after the one before, does not keep a pass
going; the next pass takes it at once, and then waits for the end. -/
theorem pass_paced_of_pieces :
    let c : Settings := ⟨10, 5, 10, true⟩
    let arrivals : List Arrival := [⟨0, .bytes [1, 0, 0, 0, 0, 0, 0, 1, 104]⟩,
      ⟨3, .bytes [1, 0, 0, 0]⟩, ⟨4, .bytes [0, 0, 0, 1]⟩, ⟨7, .bytes [105]⟩, ⟨18, .ended⟩]
    let first := (new MemoryLog.new arrivals).pass c
    let w : Tailer MemoryLog := { first.2 with now := 15, checks := 2 }
    first.1 = .idle ∧ first.2.now = 5 ∧
      ∃ p, Paced c arrivals 15 1 15 p ∧ p.ending = .endOfStream ∧ p.endsAt = 18 ∧
        p.taken.length = 1 ∧ (w.pass c).2.log.contents = ['h', 'i'] := by
  intro c arrivals first w
  have hidle : first.1 = .idle := by decide +kernel
  have htime : first.2.now = 5 := by decide +kernel
  have hrested : Rested arrivals w :=
    ((Rested.new MemoryLog.new).pass c hidle).later (by rw [htime]; decide)
  obtain ⟨p, hpaced, -, hending, hends, hframes, -⟩ :=
    pass_paced MemoryLog.reliable hrested (by decide +kernel) c
  have hcount : w.frames = 1 := by decide +kernel
  rw [hcount] at hpaced hframes
  refine ⟨hidle, htime, p, hpaced, ?_, ?_, ?_, by decide +kernel⟩
  · rw [← hending]
    decide +kernel
  · rw [← hends]
    decide +kernel
  · have hcount' : (w.pass c).2.frames = 2 := by decide +kernel
    omega

end Tailer

end BuildStep
