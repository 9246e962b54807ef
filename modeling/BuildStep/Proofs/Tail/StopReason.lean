import BuildStep.Proofs.Tail.Passes

/-!
# Why a tailer stops

A round of a tailer ends in one of many ways, and most of them are a reason to stop.  The
reason that is given in the end can be held against what has happened: the bytes of the stream, the
calls on the log, the time of a request, the answers about the build.  What comes in the last pass
counts only if it is a failure.

A run is taken apart for this into the rounds up to the first reason, and what follows from it.

## Key results

- `rounds_eq_firstStop`: a run ends with the first reason, but for the last pass
- `LoggedCall.KeptByPasses.round`: what every pass keeps, a round keeps
- `firstStop_sighted`: what the first reason says
- `run_justified`: what the reason says that a tailer gives
-/

namespace BuildStep

/-! ## Verdicts on a stream -/

namespace Wire

/-- A stream ends well only at the end of its transport and behind a whole frame. -/
theorem eq_closed_of_verdict {o : Outcome} {rest : List UInt8} (h : verdict o rest = .ended) :
    o = .closed ∧ rest = [] := by
  unfold verdict at h
  split at h
  · cases h
  · split at h
    · cases h
    · cases h
    · split at h
      · rename_i hlength
        exact ⟨rfl, List.length_eq_zero_iff.mp hlength⟩
      · split at h <;> cases h

/-- A stream cannot be read on because of its bytes, as they would be decoded at once, or because
the transport fails. -/
theorem decode_of_verdict {c : Course} {e : DemuxError}
    (h : verdict c.outcome (leftover c.bytes) = .error e) :
    (Capture.decode c.bytes).2 = .error e ∨
      ∃ failure, c.outcome = .failed failure ∧ e = .transport failure := by
  cases houtcome : c.outcome with
  | closed =>
    rw [houtcome] at h
    rw [Capture.decode_eq_wire]
    exact .inl h
  | failed failure =>
    cases hbad : badType? (leftover c.bytes) with
    | some b =>
      -- a header that tells no stream is at fault however the transport goes on
      simp only [verdict, hbad] at h
      left
      simp only [Capture.decode_eq_wire, verdict, hbad, h]
    | none =>
      simp only [houtcome, verdict, hbad] at h
      cases h
      exact .inr ⟨failure, rfl, rfl⟩
  | silent =>
    cases hbad : badType? (leftover c.bytes) with
    | some b =>
      simp only [verdict, hbad] at h
      left
      simp only [Capture.decode_eq_wire, verdict, hbad, h]
    | none =>
      simp only [houtcome, verdict, hbad] at h
      cases h

end Wire

namespace Tailer

variable {σ : Type} [LogSink σ]

/-! ## The first reason to stop -/

/-- A pass and the wait after it, up to the first reason to stop and without a last pass. -/
def firstReason (s : Surroundings) (w : Tailer σ) : Option StopReason × Tailer σ :=
  match w.pass s.settings with
  | (.endOfStream, w) => (some .endOfStream, w)
  | (.failed e, w) => (some (.failed e), w)
  | (.idle, w) =>
    match w.pendingStop s with
    | (some reason, w) => (some reason, w)
    | (none, w) => pendingStop s { w with now := wakeTime s w.now }

/-- What follows from the first reason to stop: a last pass, unless reading or writing is over. -/
def conclude (s : Surroundings) (w : Tailer σ) : StopReason → StopReason × Tailer σ
  | .requested => w.lastPass s .requested
  | .buildFinished => w.lastPass s .buildFinished
  | reason => (reason, w)

/-- Goes through rounds up to the first reason to stop, and gives the tailer as it is then. -/
def firstStop (s : Surroundings) : Nat → Tailer σ → Option (StopReason × Tailer σ)
  | 0, _ => none
  | n + 1, w =>
    match w.firstReason s with
    | (some reason, w) => some (reason, w)
    | (none, w) => firstStop s n w

omit [LogSink σ] in
/-- A look at whether to stop finds one of two reasons. -/
theorem pendingStop_cases (s : Surroundings) (w : Tailer σ) :
    (w.pendingStop s = (some .requested, w) ∧ stopVisible s w.now = true) ∨
      (w.pendingStop s = (some .buildFinished, { w with checks := w.checks + 1 }) ∧
        stopVisible s w.now = false ∧ s.build w.now w.checks = false) ∨
      w.pendingStop s = (none, { w with checks := w.checks + 1 }) := by
  unfold pendingStop
  by_cases hstop : stopVisible s w.now = true
  · rw [if_pos hstop]
    exact .inl ⟨rfl, hstop⟩
  · rw [if_neg hstop]
    have hstop' : stopVisible s w.now = false := by simpa using hstop
    cases hbuild : s.build w.now w.checks with
    | true => exact .inr (.inr rfl)
    | false => exact .inr (.inl ⟨rfl, hstop', rfl⟩)

/-- A round ends with its first reason, but for the last pass. -/
theorem round_eq_firstReason (s : Surroundings) (w : Tailer σ) :
    w.round s =
      match w.firstReason s with
      | (some reason, w) => (some (w.conclude s reason).1, (w.conclude s reason).2)
      | (none, w) => (none, w) := by
  unfold round firstReason
  generalize w.pass s.settings = passed
  obtain ⟨ending, w₁⟩ := passed
  cases ending with
  | endOfStream => rfl
  | failed e => rfl
  | idle =>
    dsimp only
    -- before the wait
    rcases pendingStop_cases s w₁ with ⟨h, -⟩ | ⟨h, -⟩ | h
    · rw [h]
      rfl
    · rw [h]
      rfl
    · rw [h]
      dsimp only
      -- after the wait
      generalize ({ w₁ with checks := w₁.checks + 1, now := wakeTime s w₁.now } : Tailer σ) = w₂
      rcases pendingStop_cases s w₂ with ⟨h, -⟩ | ⟨h, -⟩ | h
      · rw [h]
        rfl
      · rw [h]
        rfl
      · rw [h]

/-- A run ends with the first reason, but for the last pass. -/
theorem rounds_eq_firstStop (s : Surroundings) (n : Nat) (w : Tailer σ) :
    w.rounds s n = (w.firstStop s n).map fun stop => stop.2.conclude s stop.1 := by
  induction n generalizing w with
  | zero => rfl
  | succ n ih =>
    rw [rounds, firstStop, round_eq_firstReason]
    generalize w.firstReason s = sighted
    obtain ⟨reason, w₁⟩ := sighted
    cases reason with
    | some reason => rfl
    | none => exact ih w₁

/-! ## The calls on record -/

omit [LogSink σ] in
theorem pendingStop_eq (s : Surroundings) (w : Tailer σ) :
    ∃ checks, (w.pendingStop s).2 = { w with checks := checks } := by
  rcases pendingStop_cases s w with ⟨h, -⟩ | ⟨h, -⟩ | h
  · rw [h]
    exact ⟨w.checks, rfl⟩
  · rw [h]
    exact ⟨_, rfl⟩
  · rw [h]
    exact ⟨_, rfl⟩

omit [LogSink σ] in
/-- Looking whether to stop makes no call. -/
theorem pendingStop_kept {P : List LoggedCall → σ → Prop} {w : Tailer σ} (h : P w.calls w.log)
    (s : Surroundings) : P (w.pendingStop s).2.calls (w.pendingStop s).2.log := by
  obtain ⟨checks, heq⟩ := pendingStop_eq s w
  rw [heq]
  exact h

/-- A last pass is a pass, but for the reason. -/
theorem lastPass_snd (s : Surroundings) (reason : StopReason) (w : Tailer σ) :
    (w.lastPass s reason).2 = (w.pass s.settings).2 := by
  unfold lastPass
  split
  · rename_i heq
    rw [heq]
  · rename_i heq
    rw [heq]

end Tailer

/-! ## What passes keep -/

namespace LoggedCall

open Tailer

variable {σ : Type} [LogSink σ] {P : List LoggedCall → σ → Prop} {w w' : Tailer σ}
  {s : Surroundings}

/-- What is said of a log between two passes and of the calls that made it, if it stays true
whatever pass follows. -/
def KeptByPasses (c : Settings) (P : List LoggedCall → σ → Prop) : Prop :=
  ∀ w : Tailer σ, P w.calls w.log → P (w.pass c).2.calls (w.pass c).2.log

theorem KeptByWriting.keptByPasses (hP : KeptByWriting P) (c : Settings) : KeptByPasses c P :=
  fun _ h => hP.pass h c

namespace KeptByPasses

theorem firstReason (hP : KeptByPasses s.settings P) (h : P w.calls w.log) :
    P (w.firstReason s).2.calls (w.firstReason s).2.log := by
  have hpass := hP w h
  unfold Tailer.firstReason
  generalize w.pass s.settings = passed at hpass ⊢
  obtain ⟨ending, w₁⟩ := passed
  cases ending with
  | endOfStream => exact hpass
  | failed e => exact hpass
  | idle =>
    have hbefore := pendingStop_kept hpass s
    dsimp only
    generalize w₁.pendingStop s = stop at hbefore ⊢
    obtain ⟨reason, w₂⟩ := stop
    cases reason with
    | some reason => exact hbefore
    | none => exact pendingStop_kept (w := { w₂ with now := wakeTime s w₂.now }) hbefore s

theorem firstStop {n : Nat} {reason : StopReason} (hP : KeptByPasses s.settings P)
    (h : P w.calls w.log) (hstop : w.firstStop s n = some (reason, w')) : P w'.calls w'.log := by
  induction n generalizing w with
  | zero => cases hstop
  | succ n ih =>
    have hfirst := hP.firstReason h
    rw [Tailer.firstStop] at hstop
    generalize w.firstReason s = sighted at hfirst hstop
    obtain ⟨first, w₁⟩ := sighted
    cases first with
    | some reason' =>
      cases hstop
      exact hfirst
    | none => exact ih hfirst hstop

theorem conclude (hP : KeptByPasses s.settings P) (h : P w.calls w.log) (reason : StopReason) :
    P (w.conclude s reason).2.calls (w.conclude s reason).2.log := by
  have hpass := hP w h
  cases reason with
  | requested =>
    rw [← lastPass_snd s .requested] at hpass
    exact hpass
  | buildFinished =>
    rw [← lastPass_snd s .buildFinished] at hpass
    exact hpass
  | endOfStream => exact h
  | failed e => exact h

theorem round (hP : KeptByPasses s.settings P) (h : P w.calls w.log) :
    P (w.round s).2.calls (w.round s).2.log := by
  have hfirst := hP.firstReason h
  rw [round_eq_firstReason]
  generalize w.firstReason s = sighted at hfirst ⊢
  obtain ⟨reason, w₁⟩ := sighted
  cases reason with
  | some reason => exact hP.conclude hfirst reason
  | none => exact hfirst

end KeptByPasses

end LoggedCall

namespace Tailer

variable {σ : Type} [LogSink σ]

/-! ## What the first reason says -/

variable {arrivals : List Arrival} {taken : List Frame} {w w' : Tailer σ} {s : Surroundings}

/-- A tailer between two passes: all that was taken is accounted for, and was flushed. -/
structure Between (arrivals : List Arrival) (taken : List Frame) (w : Tailer σ) : Prop where
  ahead : Ahead arrivals taken w
  accounted : Accounted taken w
  clean : w.Clean

omit [LogSink σ] in
theorem Between.later (h : Between arrivals taken w) {now checks : Nat} (hnow : w.now ≤ now) :
    Between arrivals taken { w with now := now, checks := checks } where
  ahead := h.ahead.later rfl rfl hnow
  accounted := h.accounted.of_eq rfl rfl rfl rfl
  clean := h.clean

omit [LogSink σ] in
theorem between_new (log : σ) (arrivals : List Arrival) : Between arrivals [] (new log arrivals) :=
  ⟨ahead_new log arrivals, accounted_new log arrivals, rfl⟩

/-- The first reason to stop, and what has happened then. -/
inductive Sighted (s : Surroundings) (arrivals : List Arrival) : StopReason → Tailer σ → Prop
  | requested {taken : List Frame} {w : Tailer σ} (between : Between arrivals taken w)
    (visible : stopVisible s w.now = true) : Sighted s arrivals .requested w
  | buildFinished {taken : List Frame} {w : Tailer σ} {asked : Nat}
    (between : Between arrivals taken w) (visible : stopVisible s w.now = false)
    (checks : w.checks = asked + 1) (build : s.build w.now asked = false) :
    Sighted s arrivals .buildFinished w
  | endOfStream {w : Tailer σ} (taken : Taken arrivals false .endOfStream w) :
    Sighted s arrivals .endOfStream w
  | failed {e : TailError} {w : Tailer σ} (taken : Taken arrivals false (.failed e) w) :
    Sighted s arrivals (.failed e) w

omit [LogSink σ] in
/-- A look at whether to stop finds a reason that is there, or leaves the tailer between two
passes. -/
theorem pendingStop_sighted (h : Between arrivals taken w) (s : Surroundings) :
    (∃ reason, (w.pendingStop s).1 = some reason ∧
        Sighted s arrivals reason (w.pendingStop s).2) ∨
      (w.pendingStop s).1 = none ∧ Between arrivals taken (w.pendingStop s).2 := by
  rcases pendingStop_cases s w with ⟨hstop, hvisible⟩ | ⟨hstop, hvisible, hbuild⟩ | hstop
  · rw [hstop]
    exact .inl ⟨_, rfl, .requested h hvisible⟩
  · rw [hstop]
    exact .inl ⟨_, rfl, .buildFinished (h.later (Nat.le_refl _)) hvisible rfl hbuild⟩
  · rw [hstop]
    exact .inr ⟨rfl, h.later (Nat.le_refl _)⟩

theorem le_wakeTime (s : Surroundings) (now : Nat) : now ≤ wakeTime s now := by
  unfold wakeTime
  split <;> omega

/-- A round finds a reason that is there, or leaves the tailer between two passes. -/
theorem firstReason_sighted (h : Between arrivals taken w) (s : Surroundings) :
    (∃ reason, (w.firstReason s).1 = some reason ∧
        Sighted s arrivals reason (w.firstReason s).2) ∨
      (w.firstReason s).1 = none ∧ ∃ taken', Between arrivals taken' (w.firstReason s).2 := by
  have hpass := pass_taken h.ahead h.accounted h.clean s.settings
  unfold firstReason
  generalize w.pass s.settings = passed at hpass ⊢
  obtain ⟨ending, w₁⟩ := passed
  cases ending with
  | endOfStream => exact .inl ⟨_, rfl, .endOfStream hpass⟩
  | failed e => exact .inl ⟨_, rfl, .failed hpass⟩
  | idle =>
    obtain ⟨taken', hbetween⟩ : ∃ taken', Between arrivals taken' w₁ := by
      cases hpass with
      | idle ahead accounted clean => exact ⟨_, ahead, accounted, clean rfl⟩
    dsimp only
    have hbefore := pendingStop_sighted hbetween s
    generalize w₁.pendingStop s = stop at hbefore ⊢
    obtain ⟨reason, w₂⟩ := stop
    rcases hbefore with ⟨reason, rfl, hsighted⟩ | ⟨rfl, hbetween'⟩
    · exact .inl ⟨reason, rfl, hsighted⟩
    · -- the wait between two passes is over
      dsimp only
      rcases pendingStop_sighted (hbetween'.later (le_wakeTime s w₂.now)) s with hsighted | hnone
      · exact .inl hsighted
      · exact .inr ⟨hnone.1, taken', hnone.2⟩

/-- However many rounds it takes, the first reason to stop is there. -/
theorem firstStop_sighted {n : Nat} {reason : StopReason} (h : Between arrivals taken w)
    (hstop : w.firstStop s n = some (reason, w')) : Sighted s arrivals reason w' := by
  induction n generalizing w taken with
  | zero => cases hstop
  | succ n ih =>
    have hsighted := firstReason_sighted h s
    rw [firstStop] at hstop
    generalize w.firstReason s = sighted at hsighted hstop
    obtain ⟨first, w₁⟩ := sighted
    rcases hsighted with ⟨reason', rfl, hsighted⟩ | ⟨rfl, taken', hbetween⟩
    · cases hstop
      exact hsighted
    · exact ih hbetween hstop

/-! ## What the reason says that is given in the end -/

/-- What a reason says of the tailer `seen` that had the first reason to stop, and of the tailer
`last` that has taken its last frame. -/
def Justified (s : Surroundings) (arrivals : List Arrival) (seen last : Tailer σ) :
    StopReason → Prop
  | .requested => stopVisible s seen.now = true
  | .buildFinished => stopVisible s seen.now = false ∧
      ∃ asked, seen.checks = asked + 1 ∧ s.build seen.now asked = false
  | .endOfStream => (Arrival.course arrivals).outcome = .closed ∧
      Wire.leftover (Arrival.course arrivals).bytes = [] ∧
      Accounted (Wire.frames (Arrival.course arrivals).bytes) last ∧ last.Clean
  | .failed (.demux e) => lastAnswer arrivals = .error e ∧
      ((Capture.decode (Arrival.course arrivals).bytes).2 = .error e ∨
        ∃ failure, (Arrival.course arrivals).outcome = .failed failure ∧ e = .transport failure) ∧
      Accounted (Wire.frames (Arrival.course arrivals).bytes) last ∧ last.Clean
  | .failed (.log _) => ∃ taken refused, Refused arrivals taken refused last

omit [LogSink σ] in
theorem justified_of_taken {seen last : Tailer σ} {e : TailError}
    (h : Taken arrivals false (.failed e) last) : Justified s arrivals seen last (.failed e) := by
  cases h with
  | demux verdict _ accounted clean =>
    exact ⟨verdict, Wire.decode_of_verdict verdict, accounted, clean rfl⟩
  | log refused => exact ⟨_, _, refused⟩

/-- A last pass counts only if it fails. -/
theorem lastPass_justified (h : Between arrivals taken w) (s : Surroundings) (reason : StopReason)
    (hreason : ∀ last, Justified s arrivals w last reason) :
    Justified s arrivals w (w.lastPass s reason).2 (w.lastPass s reason).1 ∧
      (w.lastPass s reason).2 = (w.pass s.settings).2 ∧
      (∀ e, (w.pass s.settings).1 = .failed e → (w.lastPass s reason).1 = .failed e) ∧
      ((∀ e, (w.pass s.settings).1 ≠ .failed e) → (w.lastPass s reason).1 = reason) := by
  have hpass := pass_taken h.ahead h.accounted h.clean s.settings
  unfold lastPass
  generalize w.pass s.settings = passed at hpass ⊢
  obtain ⟨ending, w₁⟩ := passed
  cases ending with
  | idle => exact ⟨hreason w₁, rfl, by simp, fun _ => rfl⟩
  | endOfStream => exact ⟨hreason w₁, rfl, by simp, fun _ => rfl⟩
  | failed e =>
    refine ⟨justified_of_taken hpass, rfl, ?_, fun hnot => absurd rfl (hnot e)⟩
    intro e' he'
    cases he'
    rfl

/-- The tailer that has a reason to stop has every right to it. -/
theorem conclude_justified {seen : StopReason} (h : Sighted s arrivals seen w) :
    Justified s arrivals w (w.conclude s seen).2 (w.conclude s seen).1 ∧
      (seen = .requested ∨ seen = .buildFinished →
        (w.conclude s seen).2 = (w.pass s.settings).2 ∧
        (∀ e, (w.pass s.settings).1 = .failed e → (w.conclude s seen).1 = .failed e) ∧
        ((∀ e, (w.pass s.settings).1 ≠ .failed e) → (w.conclude s seen).1 = seen)) ∧
      (seen ≠ .requested → seen ≠ .buildFinished → w.conclude s seen = (seen, w)) := by
  cases h with
  | requested between visible =>
    obtain ⟨hjustified, hpass⟩ := lastPass_justified between s .requested fun _ => visible
    exact ⟨hjustified, fun _ => hpass, fun hne => absurd rfl hne⟩
  | buildFinished between visible checks build =>
    obtain ⟨hjustified, hpass⟩ := lastPass_justified between s .buildFinished
      fun _ => ⟨visible, _, checks, build⟩
    exact ⟨hjustified, fun _ => hpass, fun _ hne => absurd rfl hne⟩
  | endOfStream taken =>
    -- nothing is read after the end of a stream, so there is no last pass
    refine ⟨?_, by simp, fun _ _ => rfl⟩
    cases taken with
    | ended verdict _ accounted clean =>
      obtain ⟨hclosed, hrest⟩ := Wire.eq_closed_of_verdict verdict
      exact ⟨hclosed, hrest, accounted, clean rfl⟩
  | failed taken => exact ⟨justified_of_taken taken, by simp, fun _ _ => rfl⟩

/-! ## What a release adds -/

/-- Appending what is unfinished counts nothing, and adds it stream by stream if all goes well. -/
theorem appendRests_calls {streams : List StreamType} (hnodup : streams.Nodup) (w : Tailer σ) :
    w.calls <:+ (w.appendRests streams).calls ∧
      (w.appendRests streams).frames = w.frames ∧ (w.appendRests streams).bytes = w.bytes ∧
      ((∀ c ∈ (w.appendRests streams).calls, c.succeeded = true) →
        LoggedCall.appended (w.appendRests streams).calls = LoggedCall.appended w.calls ++
          streams.flatMap fun t => (w.decoder.finish t).1) := by
  induction streams generalizing w with
  | nil => exact ⟨List.suffix_refl _, rfl, rfl, fun _ => (List.append_nil _).symm⟩
  | cons stream streams ih =>
    obtain ⟨hstream, hnodup'⟩ := List.nodup_cons.mp hnodup
    obtain ⟨result, log, calls, happend, hcases⟩ := appendText_cases
      { w with decoder := (w.decoder.finish stream).2 } (w.decoder.finish stream).1
    have hrests : w.appendRests (stream :: streams) =
        appendRests { w with decoder := (w.decoder.finish stream).2, log := log, calls := calls }
          streams := by
      simp only [appendRests, happend]
    obtain ⟨hsuffix, hframes, hbytes, happended⟩ := ih hnodup'
      { w with decoder := (w.decoder.finish stream).2, log := log, calls := calls }
    rw [hrests]
    have hcalls : w.calls <:+ calls := by
      rcases hcases with ⟨-, -, hcalls, -⟩ | ⟨e, -, rfl⟩
      · exact hcalls
      · exact List.suffix_cons _ _
    refine ⟨hcalls.trans hsuffix, hframes, hbytes, ?_⟩
    intro hall
    rw [happended hall, flatMap_finish hstream, List.flatMap_cons, ← List.append_assoc]
    rcases hcases with ⟨-, htext, -⟩ | ⟨e, -, rfl⟩
    · exact congrArg (· ++ _) htext
    · -- a call that failed stays among the calls
      have hfailed := hall _ (hsuffix.subset List.mem_cons_self)
      cases hfailed

omit [LogSink σ] in
theorem calls_releaseTransport (w : Tailer σ) (drain : Drain) (patience : Nat) :
    (w.releaseTransport drain patience).calls = w.calls := by
  unfold releaseTransport
  split
  · rfl
  · split <;> rfl

/-- Releasing counts nothing, and completes the text if all calls succeed. -/
theorem release_calls (w : Tailer σ) (s : Surroundings) :
    w.calls <:+ (w.release s).calls ∧ (w.release s).frames = w.frames ∧
      (w.release s).bytes = w.bytes ∧
      (∀ taken, Accounted taken w → (∀ c' ∈ (w.release s).calls, c'.succeeded = true) →
        LoggedCall.appended (w.release s).calls = Capture.logText taken) := by
  have hrests := appendRests_calls (show StreamType.all.Nodup by decide) w
  unfold release
  generalize w.appendRests StreamType.all = rests at hrests ⊢
  obtain ⟨hsuffix, hframes, hbytes, happended⟩ := hrests
  obtain ⟨-, hframes', hbytes'⟩ := releaseTransport_eq (w := rests) s.drain s.settings.releaseTimeout
  have hcalls := calls_call (rests.releaseTransport s.drain s.settings.releaseTimeout) .finalize
  rw [calls_releaseTransport] at hcalls
  refine ⟨?_, hframes'.trans hframes, hbytes'.trans hbytes, ?_⟩
  · rw [hcalls]
    exact hsuffix.trans (List.suffix_cons _ _)
  · intro taken h hall
    rw [hcalls] at hall ⊢
    obtain ⟨hfinalized, hall⟩ := List.forall_mem_cons.mp hall
    have hnothing : LogCall.text .finalize = [] := rfl
    rw [LoggedCall.appended, if_pos hfinalized, happended hall, h.appended, h.decoder,
      hnothing, List.append_nil, Capture.logText, Capture.completeText]

/-- A run is the rounds up to the first reason to stop, what follows from that, and a release. -/
theorem run_firstStop {log : σ} {allowed : Nat} {reason : StopReason} {w : Tailer σ}
    (hrun : (new log arrivals).run s allowed = some (reason, w)) :
    ∃ seen first last, (new log arrivals).firstStop s allowed = some (seen, first) ∧
      Sighted s arrivals seen first ∧ first.conclude s seen = (reason, last) ∧
      Recorded log last ∧ w = last.release s := by
  rw [run, Option.map_eq_some_iff] at hrun
  obtain ⟨⟨reason', last⟩, hrounds, heq⟩ := hrun
  cases heq
  rw [rounds_eq_firstStop, Option.map_eq_some_iff] at hrounds
  obtain ⟨⟨seen, first⟩, hfirst, hconclude⟩ := hrounds
  have hkept := (LoggedCall.keptByCalls_made log).keptByWriting.keptByPasses s.settings
  have hrecorded := hkept.conclude (hkept.firstStop (recorded_new log arrivals) hfirst) seen
  simp only at hconclude
  rw [hconclude] at hrecorded
  exact ⟨seen, first, last, hfirst, firstStop_sighted (between_new log arrivals) hfirst, hconclude,
    hrecorded, rfl⟩

/-- The reason that `Tailer.run` gives is `Justified`.  It is that of `firstStop`, unless the last
pass of a tailer that was asked to stop or whose build is over has failed; `Tailer.release` counts
no frames and adds only calls that are `Recorded`. -/
theorem run_justified {log : σ} {allowed : Nat} {reason : StopReason} {w : Tailer σ}
    (hrun : (new log arrivals).run s allowed = some (reason, w)) :
    ∃ seen first last, (new log arrivals).firstStop s allowed = some (seen, first) ∧
      Justified s arrivals first last reason ∧
      (seen = .requested ∨ seen = .buildFinished →
        last = (first.pass s.settings).2 ∧
        (∀ e, (first.pass s.settings).1 = .failed e → reason = .failed e) ∧
        ((∀ e, (first.pass s.settings).1 ≠ .failed e) → reason = seen)) ∧
      (seen ≠ .requested → seen ≠ .buildFinished → reason = seen ∧ last = first) ∧
      w = last.release s ∧ Recorded log last ∧ Recorded log w ∧
      last.calls <:+ w.calls ∧ w.frames = last.frames ∧ w.bytes = last.bytes ∧
      (reason = .endOfStream → (∀ c ∈ w.calls, c.succeeded = true) →
        LoggedCall.appended w.calls =
          Capture.logText (Wire.frames (Arrival.course arrivals).bytes)) := by
  obtain ⟨seen, first, last, hfirst, hsighted, hconclude, hrecorded, rfl⟩ := run_firstStop hrun
  obtain ⟨hjustified, hpass, hnone⟩ := conclude_justified hsighted
  rw [hconclude] at hjustified hpass hnone
  obtain ⟨hcalls, hframes, hbytes, htext⟩ := release_calls last s
  refine ⟨seen, first, last, hfirst, hjustified, hpass, ?_, rfl, hrecorded,
    hrecorded.release s, hcalls, hframes, hbytes, ?_⟩
  · intro hrequested hbuild
    cases hnone hrequested hbuild
    exact ⟨rfl, rfl⟩
  · rintro rfl hall
    exact htext _ hjustified.2.2.1 hall

/-- A build is over before its stream ends; that the last pass sees this end is not the reason. -/
theorem run_justified_of_end_in_lastPass :
    let s : Surroundings := ⟨⟨10, 5, 10, true⟩, fun now _ => now < 3, none, .strict⟩
    let arrivals : List Arrival := [⟨0, .bytes [1, 0, 0, 0, 0, 0, 0, 2, 104, 105]⟩, ⟨8, .ended⟩]
    ∃ w first last : Tailer MemoryLog,
      (new MemoryLog.new arrivals).run s 5 = some (.buildFinished, w) ∧
      (first.pass s.settings).1 = .endOfStream ∧ first.now = 5 ∧
      last = (first.pass s.settings).2 ∧ Justified s arrivals first last .buildFinished ∧
      w.frames = last.frames := by
  intro s arrivals
  have hruns : ((new MemoryLog.new arrivals).run s 5).map (fun stopped => stopped.1) =
      some .buildFinished := by decide +kernel
  have hstops : ((new MemoryLog.new arrivals).firstStop s 5).map (fun stop =>
      (stop.1, stop.2.now, (stop.2.pass s.settings).1)) =
        some (.buildFinished, 5, .endOfStream) := by decide +kernel
  obtain ⟨⟨reason, w⟩, hrun, hreason⟩ := Option.map_eq_some_iff.mp hruns
  cases hreason
  obtain ⟨seen, first, last, hfirst, hjustified, hpass, -, -, -, -, -, hframes, -⟩ :=
    run_justified hrun
  rw [hfirst, Option.map_some] at hstops
  simp only [Option.some.injEq, Prod.mk.injEq] at hstops
  obtain ⟨rfl, hnow, hending⟩ := hstops
  obtain ⟨hlast, -⟩ := hpass (.inr rfl)
  exact ⟨w, first, last, hrun, hending, hnow, hlast, hjustified, hframes⟩

end Tailer

end BuildStep
