import BuildStep.Proofs.Tail.Pace
import BuildStep.Proofs.Tail.Release
import BuildStep.Tail.Scenario

/-!
# Tailers come to an end

A pass comes to an end since each frame takes at least its header off what there is to read, and a
wait for no frame ends the pass.  That there is no end of passes is a matter of the clock: a round
that finds no reason to stop waits for all of `pollInterval`, and a pass that starts when the last
reply can be read never waits, so it takes the rest of the stream and finds out how it ends.

## Key results

- `Ahead.await_final`: once the end of a stream can be read nothing is waited for
- `Tailer.round_final`: a round that starts then is the last
- `Tailer.round_now`: how long any other round takes
- `Tailer.rounds_final`: so there is a last one
- `Task.stops_by`: when a task stops whose stream ends
- `Scenario.exists_run`: as many rounds as a scenario is given are enough for that
-/

namespace BuildStep

/-! ## Streams that end -/

/-- Nothing is read behind the reply: the transport is at its end, or it fails for good. -/
def Reply.isFinal : Reply → Bool
  | .ended => true
  | .bytes bs => bs.isEmpty
  | .failed e => !e.isTransient
  | .notReady => false

/-- A stream with such a reply does not fall silent. -/
theorem Reply.outcome_ne_silent {replies : List Reply} {final : Reply} (hmem : final ∈ replies)
    (hfinal : final.isFinal = true) : (course .silent replies).outcome ≠ .silent := by
  -- a reply that the course goes on behind is not final
  have hlater : ∀ {reply : Reply} {rest : List Reply}, final ∈ reply :: rest →
      reply.isFinal = false → final ∈ rest := by
    intro reply rest hin hnot
    rcases List.mem_cons.mp hin with rfl | hrest
    · rw [hfinal] at hnot
      cases hnot
    · exact hrest
  fun_induction course .silent replies with
  | case1 => cases hmem
  | case2 => simp
  | case3 b bs rest ih => exact ih (hlater hmem rfl)
  | case4 rest ih => exact ih (hlater hmem rfl)
  | case5 e rest htransient ih => exact ih (hlater hmem (by simp [isFinal, htransient]))
  | case6 e rest htransient => simp
  | case7 => simp

/-- Behind a stream that does not fall silent there is always something to say. -/
theorem Wire.isDecided_verdict {o : Outcome} (h : o ≠ .silent) (rest : List UInt8) :
    (verdict o rest).isDecided = true := by
  unfold verdict
  split
  · rfl
  · split
    · exact absurd rfl h
    · rfl
    · split
      · rfl
      · split <;> rfl

theorem Course.items_ne_nil {c : Course} (h : c.outcome ≠ .silent) : c.items ≠ [] := by
  rw [items, List.filter_cons_of_pos (Wire.isDecided_verdict h _)]
  simp

namespace Tailer

variable {σ : Type} {arrivals : List Arrival} {taken : List Frame} {w w' : Tailer σ}

/-! ## Passes that cannot wait -/

/-- Once all replies of a stream that ends can be read nothing is waited for. -/
theorem Ahead.await_final {answer : Answer} {patience : Nat} (h : Ahead arrivals taken w)
    (hfinal : (Arrival.course arrivals).outcome ≠ .silent) (htimes : ∀ a ∈ arrivals, a.time ≤ w.now)
    (hawait : w.await patience = (answer, w')) : answer.isDecided = true ∧ w'.now = w.now := by
  have hall : readable w.now w.coming = w.coming := by
    obtain ⟨fed, harrivals, -⟩ := h.fed
    refine List.takeWhile_eq_self_iff.mpr fun a ha => ?_
    simpa using htimes a (harrivals ▸ List.mem_append_right fed ha)
  have htells : tellable w.demux w.coming w.now ≠ [] := by
    rw [tellable, hall]
    rw [← h.rest.outcome] at hfinal
    exact Course.items_ne_nil hfinal
  obtain ⟨item, rest, hitems⟩ := List.exists_cons_of_ne_nil htells
  obtain ⟨hdecided, -, hstill⟩ := h.await_told (by rw [hitems]; rfl) hawait
  exact ⟨hdecided, hstill⟩

variable [LogSink σ] {c : Settings} {s : Surroundings} {time : Nat}

/-- Then the time of a pass is not used up before the stream is over. -/
theorem takeFrames_final (hahead : Ahead arrivals taken w) (haccounted : Accounted taken w)
    (hfinal : (Arrival.course arrivals).outcome ≠ .silent) (htimes : ∀ a ∈ arrivals, a.time ≤ w.now)
    {started : Nat} (hleft : w.now < started + c.pollInterval) (any : Bool) :
    (takeFrames c started any w).1 ≠ .idle ∧ (takeFrames c started any w).2.2.now = w.now := by
  -- the clock stands still from one frame to the next
  fun_induction takeFrames c started any w generalizing taken with
  | case1 any w hover => omega
  | case2 any w hover w' hawait => cases (hahead.await_final hfinal htimes hawait).1
  | case3 any w hover w' hawait => exact ⟨by simp, (hahead.await_final hfinal htimes hawait).2⟩
  | case4 any w hover e w' hawait => exact ⟨by simp, (hahead.await_final hfinal htimes hawait).2⟩
  | case5 any w hover f waited hawait e w' hdeliver =>
    have hnow := (waited.deliver_calls f).1
    rw [hdeliver] at hnow
    exact ⟨by simp, hnow.trans (hahead.await_final hfinal htimes hawait).2⟩
  | case6 any w hover f waited hawait delivered hdeliver ih =>
    have hwaited := (hahead.await_final hfinal htimes hawait).2
    rcases deliver_accounted (haccounted.await hawait) f with
      ⟨w'', hok, hdelivered, hdemux, hcoming, hnow⟩ | ⟨e', w'', hfails, -⟩
    · rw [hdeliver] at hok
      cases hok
      have hstill : delivered.now = w.now := hnow.trans hwaited
      obtain ⟨hending, hrest⟩ :=
        ih ((hahead.await_frame hawait).later hdemux hcoming (Nat.le_of_eq hnow.symm)) hdelivered
          (hstill ▸ htimes) (hstill ▸ hleft)
      exact ⟨hending, hrest.trans hstill⟩
    · rw [hdeliver] at hfails
      cases hfails

/-- A pass that starts then takes no time, and does not end for want of frames. -/
theorem pass_final (h : Between arrivals taken w) (hpoll : 0 < c.pollInterval)
    (hfinal : (Arrival.course arrivals).outcome ≠ .silent)
    (htimes : ∀ a ∈ arrivals, a.time ≤ w.now) :
    (w.pass c).1 ≠ .idle ∧ (w.pass c).2.now = w.now := by
  obtain ⟨hending, hstill⟩ := takeFrames_final h.ahead h.accounted hfinal htimes
    (Nat.lt_add_of_pos_right hpoll) false
  obtain ⟨hnow, -, hsame⟩ := pass_cases w c
  refine ⟨?_, hnow.trans hstill⟩
  rcases hsame with hsame | ⟨e, hflush⟩
  · rw [hsame]
    exact hending
  · rw [hflush]
    simp

/-- A round that starts then is the last one, and takes no time. -/
theorem round_final (h : Between arrivals taken w) (hpoll : 0 < s.settings.pollInterval)
    (hfinal : (Arrival.course arrivals).outcome ≠ .silent)
    (htimes : ∀ a ∈ arrivals, a.time ≤ w.now) :
    (∃ reason, (w.round s).1 = some reason) ∧ (w.round s).2.now = w.now := by
  obtain ⟨hending, hstill⟩ := pass_final h hpoll hfinal htimes
  unfold round
  generalize w.pass s.settings = passed at hending hstill ⊢
  obtain ⟨ending, w₁⟩ := passed
  cases ending with
  | idle => exact absurd rfl hending
  | endOfStream => exact ⟨⟨_, rfl⟩, hstill⟩
  | failed e => exact ⟨⟨_, rfl⟩, hstill⟩

/-! ## How long a round takes -/

theorem pass_now (hcheck : c.check = none) (w : Tailer σ) :
    w.now ≤ (w.pass c).2.now ∧ (w.pass c).2.now < w.now + c.pollInterval + c.drainIdle := by
  obtain ⟨hidle, -⟩ := (Settings.check_eq_none_iff c).mp hcheck
  have htaken : InTime c w.now w (takeFrames c w.now false w).2.2 :=
    takeFrames_inTime false (by omega)
  rw [(pass_cases w c).1]
  exact ⟨htaken.since, htaken.overrun⟩

omit [LogSink σ] in
theorem pendingStop_now (s : Surroundings) (w : Tailer σ) : (w.pendingStop s).2.now = w.now := by
  obtain ⟨checks, heq⟩ := pendingStop_eq s w
  rw [heq]

theorem wakeTime_le (s : Surroundings) (now : Nat) :
    wakeTime s now ≤ now + s.settings.pollInterval := by
  unfold wakeTime
  split <;> omega

/-- A wait that ends without a request has taken its time. -/
theorem wakeTime_of_not_visible {now : Nat} (h : stopVisible s (wakeTime s now) = false) :
    wakeTime s now = now + s.settings.pollInterval := by
  unfold stopVisible at h
  unfold wakeTime at h ⊢
  cases hstop : s.stopAt with
  | none => rfl
  | some stop =>
    rw [hstop] at h
    simp only [decide_eq_false_iff_not] at h ⊢
    omega

omit [LogSink σ] in
theorem not_visible_of_pendingStop (h : (w.pendingStop s).1 = none) :
    stopVisible s w.now = false := by
  unfold pendingStop at h
  split at h
  · cases h
  · simpa using ‹¬stopVisible s w.now = true›

/-- Up to the first reason to stop there is a pass and a wait, and the wait is no shorter than
it should be unless there is a reason. -/
theorem firstReason_now (hcheck : s.settings.check = none) (w : Tailer σ) :
    (w.firstReason s).2.now ≤ w.now + 2 * s.settings.pollInterval + s.settings.drainIdle ∧
      ((w.firstReason s).1 = none → w.now + s.settings.pollInterval ≤ (w.firstReason s).2.now) := by
  have hpass := pass_now hcheck w
  unfold firstReason
  generalize w.pass s.settings = passed at hpass ⊢
  obtain ⟨ending, w₁⟩ := passed
  dsimp only at hpass
  cases ending with
  | endOfStream => exact ⟨by dsimp only; omega, by simp⟩
  | failed e => exact ⟨by dsimp only; omega, by simp⟩
  | idle =>
    have hbefore := pendingStop_now s w₁
    dsimp only
    generalize w₁.pendingStop s = stop at hbefore ⊢
    obtain ⟨reason, w₂⟩ := stop
    dsimp only at hbefore
    cases reason with
    | some reason => exact ⟨by dsimp only; omega, by simp⟩
    | none =>
      -- the wait between two passes
      have hwoken := pendingStop_now s { w₂ with now := wakeTime s w₂.now }
      have hwake := wakeTime_le s w₂.now
      dsimp only at hwoken ⊢
      refine ⟨by omega, fun hnone => ?_⟩
      have hfull := wakeTime_of_not_visible (not_visible_of_pendingStop hnone)
      omega

theorem conclude_now (hcheck : s.settings.check = none) (w : Tailer σ) (reason : StopReason) :
    (w.conclude s reason).2.now ≤ w.now + s.settings.pollInterval + s.settings.drainIdle := by
  have hpass := pass_now hcheck w
  have hlast : ∀ reason, (w.lastPass s reason).2.now ≤
      w.now + s.settings.pollInterval + s.settings.drainIdle := by
    intro reason
    rw [lastPass_snd]
    omega
  cases reason with
  | requested => exact hlast _
  | buildFinished => exact hlast _
  | endOfStream => exact Nat.le_add_right_of_le (Nat.le_add_right _ _)
  | failed e => exact Nat.le_add_right_of_le (Nat.le_add_right _ _)

/-- A round takes some time, unless there is a reason to stop, and only so much. -/
theorem round_now (hcheck : s.settings.check = none) (w : Tailer σ) :
    (w.round s).2.now ≤ w.now + 3 * s.settings.pollInterval + 2 * s.settings.drainIdle ∧
      ((w.round s).1 = none → w.now + s.settings.pollInterval ≤ (w.round s).2.now ∧
        (w.round s).2.now ≤ w.now + 2 * s.settings.pollInterval + s.settings.drainIdle) := by
  have hfirst := firstReason_now hcheck w
  rw [round_eq_firstReason]
  generalize w.firstReason s = sighted at hfirst ⊢
  obtain ⟨reason, w₁⟩ := sighted
  dsimp only at hfirst
  cases reason with
  | none => exact ⟨by dsimp only; omega, fun _ => ⟨hfirst.2 rfl, hfirst.1⟩⟩
  | some reason =>
    have hconclude := conclude_now hcheck w₁ reason
    exact ⟨by dsimp only; omega, by simp⟩

/-! ## All rounds -/

/-- A round that finds no reason to stop leaves the tailer between two passes. -/
theorem Between.round (h : Between arrivals taken w) (hnone : (w.round s).1 = none) :
    ∃ taken', Between arrivals taken' (w.round s).2 := by
  have hsighted := firstReason_sighted h s
  rw [round_eq_firstReason] at hnone ⊢
  generalize w.firstReason s = sighted at hsighted hnone ⊢
  obtain ⟨reason, w₁⟩ := sighted
  rcases hsighted with ⟨reason', rfl, -⟩ | ⟨rfl, hbetween⟩
  · cases hnone
  · exact hbetween

theorem rounds_of_some {reason : StopReason} (h : (w.round s).1 = some reason) (n : Nat) :
    w.rounds s (n + 1) = some (reason, (w.round s).2) := by
  rw [rounds]
  generalize w.round s = around at h ⊢
  obtain ⟨found, w₁⟩ := around
  cases h
  rfl

theorem rounds_of_none (h : (w.round s).1 = none) (n : Nat) :
    w.rounds s (n + 1) = (w.round s).2.rounds s n := by
  rw [rounds]
  generalize w.round s = around at h ⊢
  obtain ⟨found, w₁⟩ := around
  cases h
  rfl

/-- As each round takes its time, one of them is the last. -/
theorem rounds_final (hcheck : s.settings.check = none) (h : Between arrivals taken w)
    (hfinal : (Arrival.course arrivals).outcome ≠ .silent) (htimes : ∀ a ∈ arrivals, a.time ≤ time)
    {n : Nat} (hn : time ≤ w.now + n * s.settings.pollInterval)
    (hnow : w.now ≤ time + 2 * s.settings.pollInterval + s.settings.drainIdle) :
    ∃ reason w', w.rounds s (n + 1) = some (reason, w') ∧
      w'.now ≤ time + 3 * s.settings.pollInterval + 2 * s.settings.drainIdle := by
  have hover : ∀ {taken : List Frame} {w : Tailer σ}, Between arrivals taken w → time ≤ w.now →
      (∃ reason, (w.round s).1 = some reason) ∧ (w.round s).2.now = w.now :=
    fun h hlate => round_final h (Settings.pollInterval_pos hcheck) hfinal
      fun a ha => Nat.le_trans (htimes a ha) hlate
  induction n generalizing w taken with
  | zero =>
    obtain ⟨⟨reason, hreason⟩, hstill⟩ := hover h (by omega)
    exact ⟨reason, _, rounds_of_some hreason 0, by omega⟩
  | succ n ih =>
    by_cases hlate : time ≤ w.now
    · obtain ⟨⟨reason, hreason⟩, hstill⟩ := hover h hlate
      exact ⟨reason, _, rounds_of_some hreason (n + 1), by omega⟩
    · obtain ⟨hround, hnext⟩ := round_now hcheck w
      cases hreason : (w.round s).1 with
      | some reason => exact ⟨reason, _, rounds_of_some hreason (n + 1), by omega⟩
      | none =>
        -- the next round starts by one `pollInterval` later
        obtain ⟨taken', hbetween⟩ := h.round hreason
        obtain ⟨hlater, hsoon⟩ := hnext hreason
        rw [Nat.succ_mul] at hn
        rw [rounds_of_none hreason]
        exact ih hbetween (by omega) (by omega)

/-- From the start on it takes no more rounds than `pollInterval` goes into the time by which all
replies are given, and then two more. -/
theorem exists_rounds (hcheck : s.settings.check = none) {final : Arrival} (hmem : final ∈ arrivals)
    (hfinal : final.reply.isFinal = true) (htimes : ∀ a ∈ arrivals, a.time ≤ time) (log : σ)
    {n : Nat} (hn : time / s.settings.pollInterval < n) :
    ∃ reason w, (new log arrivals).rounds s (n + 1) = some (reason, w) ∧
      w.now ≤ time + 3 * s.settings.pollInterval + 2 * s.settings.drainIdle := by
  have hends : (Arrival.course arrivals).outcome ≠ .silent :=
    Reply.outcome_ne_silent (List.mem_map_of_mem hmem) hfinal
  have hrounds : time ≤ 0 + n * s.settings.pollInterval := by
    rw [Nat.zero_add]
    exact Nat.le_of_lt ((Nat.div_lt_iff_lt_mul (Settings.pollInterval_pos hcheck)).mp hn)
  exact rounds_final hcheck (between_new log arrivals) hends htimes hrounds (Nat.zero_le _)

end Tailer

/-! ## Tasks -/

namespace Task

variable {σ : Type} [LogSink σ] {s : Surroundings} {arrivals : List Arrival} {final : Arrival}
  {time : Nat}

/-- A task in whose stream a final reply is given stops within `time / pollInterval + 2` rounds and
by a time that follows from `time` and the settings, and stays as it is. -/
theorem stops_by (hcheck : s.settings.check = none) (hmem : final ∈ arrivals)
    (hfinal : final.reply.isFinal = true) (htimes : ∀ a ∈ arrivals, a.time ≤ time) (log : σ) :
    let allowed := time / s.settings.pollInterval + 2
    ∃ reason w, (Tailer.new log arrivals).run s allowed = some (reason, w) ∧
      w.now ≤ time + 3 * s.settings.pollInterval + 2 * s.settings.drainIdle +
        s.settings.releaseTimeout ∧
      ∀ m, allowed + Chore.all.length ≤ m →
        started s log arrivals m = ⟨w, .stopped, some (reason, [])⟩ := by
  intro allowed
  obtain ⟨reason, last, hlast, hnow⟩ :=
    Tailer.exists_rounds hcheck hmem hfinal htimes log (Nat.lt_succ_self _)
  -- the task goes through the same rounds, and then releases everything
  obtain ⟨n, hn, hin, hleft⟩ := (rounds_eq_some_iff (t := (new log arrivals).start) rfl).mp hlast
  have hout : (started s log arrivals (n + 1)).leaving ≠ none := by
    rw [started, hleft]
    simp
  obtain ⟨reason', hrun, hunfinalized, hforever, -⟩ := released_of_left hin hout
  have hworker : (started s log arrivals (n + 1)).worker = last := congrArg worker hleft
  rw [hworker] at hrun hunfinalized hforever
  obtain rfl : reason' = reason := by
    have hleaves := (rounds_eq_some_iff (t := (new log arrivals).start) rfl).mpr
      ⟨n, Nat.lt_succ_self n, hin, hleft⟩
    rw [Tailer.run, show (Tailer.new log arrivals).rounds s (n + 1) = _ from hleaves] at hrun
    cases hrun
    rfl
  obtain ⟨call, earlier, -, -, -, -, hfinalized, -, hsoon⟩ :=
    Tailer.release_finalizes hunfinalized s
  refine ⟨reason', last.release s, ?_, by omega, fun m hm => hforever m (by omega)⟩
  rw [Tailer.run, hlast]
  rfl

/-- A stream of empty frames and interrupted reads, the connection of which is lost at 23. -/
theorem stops_by_of_empty_frames :
    let interrupted : IoError := ⟨.interrupted, "interrupted"⟩
    let lost : IoError := ⟨.other, "connection lost"⟩
    let s : Surroundings := ⟨⟨10, 5, 20, false⟩, fun _ _ => true, none, .strict⟩
    let arrivals : List Arrival := [⟨1, .failed interrupted⟩, ⟨2, .bytes [1, 0, 0, 0, 0, 0, 0, 0]⟩,
      ⟨4, .bytes [2, 0, 0, 0, 0, 0, 0, 0]⟩, ⟨12, .failed interrupted⟩, ⟨23, .failed lost⟩]
    s.settings.check = none ∧ ∃ reason w,
      (Tailer.new MemoryLog.new arrivals).run s 4 = some (reason, w) ∧
        reason = .failed (.demux (.transport lost)) ∧ w.frames = 2 ∧ w.now ≤ 83 ∧
        ∀ m, 10 ≤ m → (started s MemoryLog.new arrivals m).phase = .stopped := by
  intro interrupted lost s arrivals
  have hcheck : s.settings.check = none := by decide
  have htimes : ∀ a ∈ arrivals, a.time ≤ 23 := by decide
  obtain ⟨reason, w, hrun, hnow, hstopped⟩ := stops_by hcheck
    (show (⟨23, .failed lost⟩ : Arrival) ∈ arrivals by decide) rfl htimes MemoryLog.new
  have hruns : ((Tailer.new MemoryLog.new arrivals).run s 4).map (fun stop =>
      (stop.1, stop.2.frames)) = some (.failed (.demux (.transport lost)), 2) := by decide +kernel
  have hallowed : 23 / s.settings.pollInterval + 2 = 4 := by decide
  rw [hallowed] at hrun hstopped
  rw [hrun] at hruns
  obtain ⟨hreason, hframes⟩ := Prod.mk.inj (Option.some.inj hruns)
  refine ⟨hcheck, reason, w, hrun, hreason, hframes, hnow, fun m hm => ?_⟩
  rw [hstopped m hm]

end Task

/-! ## Scenarios -/

namespace Scenario

theorem le_quietFrom (s : Scenario) {a : Arrival} (h : a ∈ s.arrivals) : a.time ≤ s.quietFrom := by
  have hall : ∀ (times : List Nat) (first : Nat), first ≤ times.foldl max first ∧
      ∀ time ∈ times, time ≤ times.foldl max first := by
    intro times
    induction times with
    | nil => exact fun first => ⟨Nat.le_refl _, by simp⟩
    | cons time times ih =>
      intro first
      obtain ⟨hfirst, htimes⟩ := ih (max first time)
      obtain ⟨hfirst, htime⟩ := Nat.max_le.mp hfirst
      exact ⟨hfirst, List.forall_mem_cons.mpr ⟨htime, htimes⟩⟩
  exact (hall _ _).2 a.time (List.mem_map_of_mem h)

/-- A scenario whose stream ends is given enough rounds to come to its end. -/
theorem exists_run {σ : Type} [LogSink σ] {s : Scenario} (hcheck : s.settings.check = none)
    {final : Arrival} (hmem : final ∈ s.arrivals) (hfinal : final.reply.isFinal = true) (log : σ) :
    ∃ stopped, s.run log = some stopped := by
  have hrounds : s.quietFrom / s.settings.pollInterval <
      s.quietFrom / s.settings.pollInterval + s.build.settledAfter + 2 := by omega
  obtain ⟨reason, last, hlast, -⟩ := Tailer.exists_rounds (s := s.surroundings) hcheck hmem hfinal
    (fun a ha => s.le_quietFrom ha) log hrounds
  refine ⟨(reason, last.release s.surroundings), ?_⟩
  rw [run, Tailer.run, roundsNeeded, hlast]
  rfl

end Scenario

end BuildStep
