import BuildStep.Proofs.Log.Faults
import BuildStep.Proofs.Tail.StopReason
import BuildStep.Tail.Task

/-!
# What every tailer does in the end

There are many ways out of the loop of a tailer, and all of them lead through the same chores.  None
of the chores can be skipped, since none depends on how those before it went, and only one of them
takes time, of which it takes no more than it may.  So a tailer that leaves its loop finalizes its log
once, soon, and after everything else it does to the log, and only then is seen to have stopped.

## Key results

- `LoggedCall.Made.isLive_iff`: a log is live until it is finalized
- `Tailer.release_finalizes`: the last call of a release, and when it is made
- `Task.after_of_leaving`: a task that left its loop does its chores
- `Task.rounds_eq_some_iff`: a task goes through its rounds as a tailer does
- `Task.stopped_of_left`: what every task comes to that leaves its loop
-/

namespace BuildStep

variable {σ : Type}

/-! ## Logs that are live until they are finalized -/

/-- A kind of log that is live while it is open, stays open whatever is written to it, and is not
live once it was finalized, whether or not the calls succeed. -/
structure LogSink.LiveUntilFinalized [LogSink σ] (isOpen : σ → Prop) : Prop where
  live : ∀ log, isOpen log → LogSink.isLive log = true
  append : ∀ log t, isOpen log → isOpen (LogSink.append log t).2
  flush : ∀ log, isOpen log → isOpen (LogSink.flush log).2
  finalize : ∀ log, isOpen log → LogSink.isLive (LogSink.finalize log).2 = false

theorem MemoryLog.liveUntilFinalized :
    LogSink.LiveUntilFinalized fun log : MemoryLog => log.live = true where
  live log h := h
  append log t h := by
    show (log.append t).2.live = true
    rw [MemoryLog.append, if_pos h]
    exact h
  flush log h := h
  finalize log h := by
    show log.finalize.live = false
    rw [MemoryLog.finalize, if_pos h]

/-- A log in a file has its file as long as it is live. -/
def DiskLog.IsOpen (d : DiskLog) : Prop :=
  d.log.live = true ∧ ∃ writer, d.log.writer = some writer

theorem DiskLog.isOpen_of_openOn {disk disk' : Disk} {path : Text} {a : Attachment} {since : Text}
    {withMarker : Bool} {log : FileLog}
    (h : FileLog.openOn disk path a since withMarker = (.ok log, disk'))
    (faults : List (Option FileLog.Fault)) :
    IsOpen ⟨disk', log, faults⟩ := by
  unfold FileLog.openOn at h
  split at h
  · cases h
  · split at h
    · split at h
      · cases h
      · cases h
        exact ⟨rfl, _, rfl⟩
    · cases h
      exact ⟨rfl, _, rfl⟩

theorem DiskLog.liveUntilFinalized : LogSink.LiveUntilFinalized DiskLog.IsOpen where
  live d h := h.1
  append d t h := by
    obtain ⟨hlive, writer, hwriter⟩ := h
    obtain ⟨-, pending, hlog⟩ := DiskLog.wrote_append hwriter t
    show (d.append t).2.IsOpen
    rw [IsOpen, hlog]
    exact ⟨hlive, _, rfl⟩
  flush d h := by
    obtain ⟨hlive, writer, hwriter⟩ := h
    obtain ⟨-, pending, hlog⟩ := DiskLog.wrote_flush hwriter
    show (d.flush).2.IsOpen
    rw [IsOpen, hlog]
    exact ⟨hlive, _, rfl⟩
  finalize d h := by
    obtain ⟨-, writer, hwriter⟩ := h
    show (d.finalize).2.log.live = false
    rw [DiskLog.finalize_of_open hwriter]
    rfl

namespace LoggedCall

/-- No call has finalized the log. -/
def Unfinalized (calls : List LoggedCall) : Prop :=
  ∀ c ∈ calls, c.call ≠ .finalize

variable [LogSink σ]

theorem keptByWriting_unfinalized :
    KeptByWriting (σ := σ) fun calls _ => Unfinalized calls := by
  intro calls log time c hc h
  exact List.forall_mem_cons.mpr ⟨hc, h⟩

theorem Made.isOpen {isOpen : σ → Prop} (hsink : LogSink.LiveUntilFinalized isOpen) {log log' : σ}
    {calls : List LoggedCall} (h : Made log calls log') (hopen : isOpen log)
    (hcalls : Unfinalized calls) : isOpen log' := by
  induction h with
  | none => exact hopen
  | call earlier time c ih =>
    obtain ⟨hc, hearlier⟩ := List.forall_mem_cons.mp hcalls
    have hbefore := ih hearlier
    cases c with
    | append t => exact hsink.append _ t hbefore
    | flush => exact hsink.flush _ hbefore
    | finalize => exact absurd rfl hc

/-- Of a log that is finalized once and then left alone, it is live at first and not live in the
end. -/
theorem Made.isLive_iff {isOpen : σ → Prop} (hsink : LogSink.LiveUntilFinalized isOpen) {log log' : σ}
    {last : LoggedCall} {earlier calls : List LoggedCall} (h : Made log calls log')
    (hopen : isOpen log) (hcalls : calls <:+ last :: earlier) (hlast : last.call = .finalize)
    (hearlier : Unfinalized earlier) :
    LogSink.isLive log' = true ↔ Unfinalized calls := by
  rcases List.suffix_cons_iff.mp hcalls with rfl | hsuffix
  · -- the last call finalizes a log that was open till then
    cases h with
    | call before time c =>
      dsimp only at hlast
      subst hlast
      have hdead := hsink.finalize _ (before.isOpen hsink hopen hearlier)
      constructor
      · intro hlive
        exact absurd (hlive.symm.trans hdead) Bool.noConfusion
      · intro hnone
        exact absurd rfl (hnone _ List.mem_cons_self)
  · have hnone : Unfinalized calls := fun c hc => hearlier c (hsuffix.subset hc)
    have hlive := hsink.live _ (h.isOpen hsink hopen hnone)
    exact ⟨fun _ => hnone, fun _ => hlive⟩

end LoggedCall

/-! ## How long a release takes -/

namespace Tailer

variable {w : Tailer σ}

theorem drainedBy_bounds {deadline now : Nat} (hnow : now ≤ deadline) (drain : Drain) (t : Transport)
    (coming : List Arrival) :
    now ≤ drainedBy drain deadline now t coming ∧ drainedBy drain deadline now t coming ≤ deadline := by
  induction coming generalizing now t with
  | nil =>
    rw [drainedBy]
    split <;> omega
  | cons a rest ih =>
    rw [drainedBy]
    split
    · split
      · -- the next reply comes in time
        have hnext : max now a.time ≤ deadline := by omega
        have hrest := ih hnext ⟨[a.reply], t.ending⟩
        omega
      · omega
    · omega

/-- A transport that never ends is let go of when the time is over. -/
theorem releaseTransport_now (w : Tailer σ) (drain : Drain) (patience : Nat) :
    w.now ≤ (w.releaseTransport drain patience).now ∧
      (w.releaseTransport drain patience).now ≤ w.now + patience := by
  unfold releaseTransport
  split
  · exact ⟨Nat.le_refl _, Nat.le_add_right _ _⟩
  · rename_i t _
    split
    · exact ⟨Nat.le_refl _, Nat.le_add_right _ _⟩
    · exact drainedBy_bounds (Nat.le_add_right _ _) drain t w.coming

variable [LogSink σ]

theorem appendText_now (w : Tailer σ) (t : Text) : (w.appendText t).2.now = w.now := by
  unfold appendText
  split <;> rfl

theorem appendRests_now (w : Tailer σ) (streams : List StreamType) :
    (w.appendRests streams).now = w.now := by
  induction streams generalizing w with
  | nil => rfl
  | cons stream streams ih =>
    have hrest := ih (appendText { w with decoder := (w.decoder.finish stream).2 }
      (w.decoder.finish stream).1).2
    rw [appendText_now] at hrest
    exact hrest

/-- A release ends with the call that finalizes the log, which is the only one of its kind, and
which is made in time. -/
theorem release_finalizes (h : LoggedCall.Unfinalized w.calls) (s : Surroundings) :
    ∃ last earlier, (w.release s).calls = last :: earlier ∧ last.call = .finalize ∧
      LoggedCall.Unfinalized earlier ∧ w.calls <:+ earlier ∧ (w.release s).now = last.time ∧
      w.now ≤ last.time ∧ last.time ≤ w.now + s.settings.releaseTimeout := by
  have hsuffix := (appendRests_calls (show StreamType.all.Nodup by decide) w).1
  have hrests := LoggedCall.keptByWriting_unfinalized.appendRests h StreamType.all
  have hnow := appendRests_now w StreamType.all
  unfold release
  generalize w.appendRests StreamType.all = rests at hsuffix hrests hnow ⊢
  have hcalls := calls_call (rests.releaseTransport s.drain s.settings.releaseTimeout) .finalize
  rw [calls_releaseTransport] at hcalls
  have htime := releaseTransport_now rests s.drain s.settings.releaseTimeout
  rw [hnow] at htime
  exact ⟨_, _, hcalls, rfl, hrests, hsuffix, rfl, htime⟩

end Tailer

/-! ## The steps of a task -/

namespace Chore

variable [LogSink σ]

theorem foldl_appendRest (s : Surroundings) (streams : List StreamType) (w : Tailer σ) :
    (streams.map appendRest).foldl (perform s) w = w.appendRests streams := by
  induction streams generalizing w with
  | nil => rfl
  | cons stream streams ih => exact ih (w.appendRests [stream])

/-- Doing all chores is a release. -/
theorem foldl_perform_all (s : Surroundings) (w : Tailer σ) :
    all.foldl (perform s) w = w.release s := by
  rw [all, List.foldl_append, foldl_appendRest]
  rfl

theorem perform_kept {P : List LoggedCall → σ → Prop} {w : Tailer σ}
    (hP : LoggedCall.KeptByCalls P) (h : P w.calls w.log) (s : Surroundings) (chore : Chore) :
    P (perform s w chore).calls (perform s w chore).log := by
  cases chore with
  | appendRest stream => exact hP.keptByWriting.appendRests h [stream]
  | releaseTransport =>
    exact LoggedCall.KeptByWriting.of_releaseTransport h s.drain s.settings.releaseTimeout
  | finalize => exact hP _ _ _ .finalize h
  | announce => exact h

theorem foldl_phaseAfter_all : all.foldl phaseAfter .running = .stopped := rfl

/-- Nothing but the last chore is seen from outside. -/
theorem phaseAfter_take {k : Nat} (h : k < all.length) :
    (all.take k).foldl phaseAfter .running = .running := by
  have hall : ∀ k < all.length, (all.take k).foldl phaseAfter .running = .running := by decide
  exact hall k h

end Chore

namespace Task

variable [LogSink σ] {s : Surroundings} {t : Task σ}

theorem after_add (s : Surroundings) (m n : Nat) (t : Task σ) :
    t.after s (m + n) = (t.after s m).after s n := by
  induction m generalizing t with
  | zero => rw [Nat.zero_add]; rfl
  | succ m ih =>
    rw [Nat.succ_add]
    exact ih (t.step s)

/-- A task that left its loop does one chore after the other. -/
theorem after_of_leaving {reason : StopReason} {chores : List Chore}
    (h : t.leaving = some (reason, chores)) (k : Nat) :
    t.after s k = ⟨(chores.take k).foldl (Chore.perform s) t.worker,
      (chores.take k).foldl Chore.phaseAfter t.phase, some (reason, chores.drop k)⟩ := by
  induction k generalizing t chores with
  | zero =>
    rw [after, List.take_zero, List.drop_zero, ← h]
    rfl
  | succ k ih =>
    rw [after]
    cases chores with
    | nil =>
      -- there is nothing left to do
      have hstep : t.step s = t := by simp only [step, h]
      have hrest := ih h
      rw [List.take_nil, List.drop_nil] at hrest ⊢
      rw [hstep, hrest]
    | cons chore rest =>
      have hstep : t.step s = ⟨chore.perform s t.worker, chore.phaseAfter t.phase,
          some (reason, rest)⟩ := by simp only [step, h]
      have hleaving : (t.step s).leaving = some (reason, rest) := by rw [hstep]
      rw [ih hleaving, hstep]
      rfl

/-- A task in its loop makes a round. -/
theorem step_of_tailing (h : t.leaving = none) :
    t.step s = ⟨(t.worker.round s).2, t.phase, (t.worker.round s).1.map fun reason =>
      (reason, Chore.all)⟩ := by
  rw [step, h]
  dsimp only
  generalize t.worker.round s = around
  obtain ⟨reason, w⟩ := around
  cases reason with
  | none => rw [Option.map_none, ← h]
  | some reason => rfl

theorem step_kept {P : List LoggedCall → σ → Prop} (hP : LoggedCall.KeptByCalls P)
    (h : P t.worker.calls t.worker.log) :
    P (t.step s).worker.calls (t.step s).worker.log := by
  cases hleaving : t.leaving with
  | none =>
    rw [step_of_tailing hleaving]
    exact (hP.keptByWriting.keptByPasses s.settings).round h
  | some left =>
    obtain ⟨reason, chores⟩ := left
    have hstep := after_of_leaving (s := s) hleaving 1
    rw [after, after] at hstep
    rw [hstep]
    cases chores with
    | nil => exact h
    | cons chore rest => exact Chore.perform_kept hP h s chore

theorem after_kept {P : List LoggedCall → σ → Prop} (hP : LoggedCall.KeptByCalls P)
    (h : P t.worker.calls t.worker.log) (n : Nat) :
    P (t.after s n).worker.calls (t.after s n).worker.log := by
  induction n generalizing t with
  | zero => exact h
  | succ n ih => exact ih (step_kept hP h)

/-- There is no way back into the loop. -/
theorem tailing_of_after {m n : Nat} (h : (t.after s n).leaving = none) (hle : m ≤ n) :
    (t.after s m).leaving = none := by
  obtain ⟨k, rfl⟩ := Nat.exists_eq_add_of_le hle
  rw [after_add] at h
  cases hleaving : (t.after s m).leaving with
  | none => rfl
  | some left =>
    rw [after_of_leaving hleaving] at h
    cases h

/-- In the loop nothing is announced, and nothing is done to the log but by passes. -/
theorem tailing_kept {n : Nat} {P : List LoggedCall → σ → Prop}
    (hP : LoggedCall.KeptByPasses s.settings P) (hstart : P t.worker.calls t.worker.log)
    (h : (t.after s n).leaving = none) :
    (t.after s n).phase = t.phase ∧ P (t.after s n).worker.calls (t.after s n).worker.log := by
  induction n generalizing t with
  | zero => exact ⟨rfl, hstart⟩
  | succ n ih =>
    have htailing : t.leaving = none := tailing_of_after h (Nat.zero_le (n + 1))
    have hstep := step_of_tailing (s := s) htailing
    have hrest := ih (t := t.step s) (by rw [hstep]; exact hP.round hstart) h
    rw [after]
    refine ⟨hrest.1.trans ?_, hrest.2⟩
    rw [hstep]

/-- A task goes through its rounds as a tailer does. -/
theorem rounds_eq_some_iff {allowed : Nat} {reason : StopReason} {w : Tailer σ}
    (h : t.leaving = none) :
    t.worker.rounds s allowed = some (reason, w) ↔
      ∃ n < allowed, (t.after s n).leaving = none ∧
        t.after s (n + 1) = ⟨w, t.phase, some (reason, Chore.all)⟩ := by
  induction allowed generalizing t with
  | zero => simp [Tailer.rounds]
  | succ allowed ih =>
    have hstep := step_of_tailing (s := s) h
    rw [Tailer.rounds]
    generalize t.worker.round s = around at hstep ⊢
    obtain ⟨found, w₁⟩ := around
    cases found with
    | some found =>
      -- the loop is left here, and cannot be left again
      dsimp only
      constructor
      · intro hrounds
        cases hrounds
        exact ⟨0, Nat.succ_pos _, h, hstep⟩
      · rintro ⟨n, -, htailing, hleft⟩
        cases n with
        | zero =>
          rw [after, after, hstep] at hleft
          cases hleft
          rfl
        | succ n =>
          have hfirst := tailing_of_after htailing (show 1 ≤ n + 1 by omega)
          rw [after, after, hstep] at hfirst
          cases hfirst
    | none =>
      have hrest := ih (t := t.step s) (by rw [hstep]; rfl)
      rw [hstep] at hrest
      dsimp only at hrest ⊢
      rw [hrest]
      constructor
      · rintro ⟨n, hn, htailing, hleft⟩
        refine ⟨n + 1, Nat.succ_lt_succ hn, ?_, ?_⟩
        · rw [after, hstep]
          exact htailing
        · rw [after, hstep]
          exact hleft
      · rintro ⟨n, hn, htailing, hleft⟩
        cases n with
        | zero =>
          rw [after, after, hstep] at hleft
          cases hleft
        | succ n =>
          refine ⟨n, Nat.lt_of_succ_lt_succ hn, ?_, ?_⟩
          · rw [after, hstep] at htailing
            exact htailing
          · rw [after, hstep] at hleft
            exact hleft

/-! ## A task that leaves its loop -/

variable {log : σ} {arrivals : List Arrival} {n : Nat}

/-- A task that has just left its loop has not yet finalized its log, and what it comes to is that
its tailer releases everything. -/
theorem started_of_left (hin : (started s log arrivals n).leaving = none)
    (hout : (started s log arrivals (n + 1)).leaving ≠ none) :
    ∃ reason, (Tailer.new log arrivals).rounds s (n + 1) =
        some (reason, (started s log arrivals (n + 1)).worker) ∧
      LoggedCall.Unfinalized (started s log arrivals (n + 1)).worker.calls ∧
      (∀ k, started s log arrivals (n + 1 + k) =
        ⟨(Chore.all.take k).foldl (Chore.perform s)
            (started s log arrivals (n + 1)).worker,
          (Chore.all.take k).foldl Chore.phaseAfter .running, some (reason, Chore.all.drop k)⟩) ∧
      ∀ m ≤ n + 1, (started s log arrivals m).phase = .running := by
  have hnone : LoggedCall.Unfinalized (new log arrivals).start.worker.calls :=
    fun c hc => absurd hc List.not_mem_nil
  have hwriting := (LoggedCall.keptByWriting_unfinalized (σ := σ)).keptByPasses s.settings
  obtain ⟨hphase, hkept⟩ := tailing_kept hwriting hnone hin
  -- the step out of the loop is a round with a reason to stop
  have hstep := step_of_tailing (s := s) hin
  have hround := hwriting.round hkept
  rw [started, after_add, after, after] at hout
  rw [started] at hstep
  generalize Tailer.round s ((new log arrivals).start.after s n).worker = around at hstep hround
  obtain ⟨found, last⟩ := around
  cases found with
  | none => exact absurd (congrArg leaving hstep) hout
  | some reason =>
    have hleft : started s log arrivals (n + 1) = ⟨last, .running, some (reason, Chore.all)⟩ := by
      rw [started, after_add, after, after, hstep, hphase]
      rfl
    refine ⟨reason, ?_, ?_, ?_, ?_⟩
    · rw [hleft]
      exact (rounds_eq_some_iff (t := (new log arrivals).start) rfl).mpr
        ⟨n, Nat.lt_succ_self n, hin, hleft⟩
    · rw [hleft]
      exact hround
    · intro k
      have hafter := after_of_leaving (s := s) (congrArg leaving hleft) k
      rw [started, after_add]
      rw [hleft] at hafter ⊢
      rw [started] at hleft
      rw [hleft, hafter]
    · intro m hm
      rcases Nat.le_succ_iff.mp hm with hle | rfl
      · exact (tailing_kept hwriting hnone (tailing_of_after hin hle)).1
      · rw [hleft]

/-- From then on it does its chores, and is seen to have stopped once it has done all of them. -/
theorem released_of_left (hin : (started s log arrivals n).leaving = none)
    (hout : (started s log arrivals (n + 1)).leaving ≠ none) :
    ∃ reason, (Tailer.new log arrivals).run s (n + 1) =
        some (reason, (started s log arrivals (n + 1)).worker.release s) ∧
      LoggedCall.Unfinalized (started s log arrivals (n + 1)).worker.calls ∧
      (∀ m, n + 1 + Chore.all.length ≤ m → started s log arrivals m =
        ⟨(started s log arrivals (n + 1)).worker.release s, .stopped,
          some (reason, [])⟩) ∧
      ∀ m, (started s log arrivals m).phase =
        if m < n + 1 + Chore.all.length then .running else .stopped := by
  obtain ⟨reason, hrounds, hunfinalized, hchores, hrunning⟩ := started_of_left hin hout
  have hforever : ∀ m, n + 1 + Chore.all.length ≤ m → started s log arrivals m =
      ⟨(started s log arrivals (n + 1)).worker.release s, .stopped,
        some (reason, [])⟩ := by
    intro m hm
    obtain ⟨k, rfl⟩ := Nat.exists_eq_add_of_le hm
    rw [Nat.add_assoc, hchores, List.take_of_length_le (Nat.le_add_right _ _),
      List.drop_of_length_le (Nat.le_add_right _ _), Chore.foldl_perform_all,
      Chore.foldl_phaseAfter_all]
  refine ⟨reason, ?_, hunfinalized, hforever, ?_⟩
  · rw [Tailer.run, hrounds]
    rfl
  · intro m
    split
    · rcases Nat.lt_or_ge m (n + 1) with hm | hm
      · exact hrunning m (Nat.le_of_lt hm)
      · obtain ⟨k, rfl⟩ := Nat.exists_eq_add_of_le hm
        rw [hchores]
        exact Chore.phaseAfter_take (by omega)
    · rw [hforever m (by omega)]

/-- A task that is not in its loop any more has left it in some step. -/
theorem exists_left (h : (started s log arrivals n).leaving ≠ none) :
    ∃ k, (started s log arrivals k).leaving = none ∧
      (started s log arrivals (k + 1)).leaving ≠ none := by
  induction n with
  | zero => exact absurd rfl h
  | succ n ih =>
    by_cases hin : (started s log arrivals n).leaving = none
    · exact ⟨n, hin, h⟩
    · exact ih hin

/-- A task that is seen to have stopped has left its loop some time and released everything. -/
theorem exists_left_of_stopped (h : (started s log arrivals n).phase = .stopped) :
    ∃ k, (started s log arrivals k).leaving = none ∧
      (started s log arrivals (k + 1)).leaving ≠ none ∧ k + 1 + Chore.all.length ≤ n := by
  have hout : (started s log arrivals n).leaving ≠ none := by
    -- in its loop it is seen to be running
    intro hin
    have hrunning := (tailing_kept (P := fun _ _ => True) (fun _ _ => trivial) trivial hin).1
    rw [← started, h] at hrunning
    cases hrunning
  obtain ⟨k, hin, hout⟩ := exists_left hout
  obtain ⟨-, -, -, -, hphase⟩ := released_of_left hin hout
  rw [hphase n] at h
  split at h
  · cases h
  · exact ⟨k, hin, hout, by omega⟩

/-- At every moment the calls so far are the first of those there will be, and made the log. -/
theorem started_calls (s : Surroundings) (log : σ) (arrivals : List Arrival) (m k : Nat) :
    (started s log arrivals m).worker.calls <:+ (started s log arrivals (m + k)).worker.calls ∧
      LoggedCall.Made log (started s log arrivals m).worker.calls
        (started s log arrivals m).worker.log := by
  constructor
  · rw [started, started, after_add]
    exact after_kept (LoggedCall.keptByCalls_suffix _) (List.suffix_refl _) k
  · exact after_kept (LoggedCall.keptByCalls_made log) .none m

/-- A task that leaves its loop does `Chore.all` and is then `stopped` for ever, as `Tailer.run` has
it. Its last call, within `releaseTimeout`, is the only `finalize`; a log that is
`LiveUntilFinalized` is live just until then. -/
theorem stopped_of_left (hin : (started s log arrivals n).leaving = none)
    (hout : (started s log arrivals (n + 1)).leaving ≠ none) :
    let left := started s log arrivals (n + 1)
    let stopped := started s log arrivals (n + 1 + Chore.all.length)
    ∃ reason last earlier,
      (Tailer.new log arrivals).run s (n + 1) = some (reason, stopped.worker) ∧
      stopped.worker.calls = last :: earlier ∧ last.call = .finalize ∧
      LoggedCall.Unfinalized earlier ∧ left.worker.calls <:+ earlier ∧
      left.worker.now ≤ last.time ∧
      last.time ≤ left.worker.now + s.settings.releaseTimeout ∧
      stopped.worker.now = last.time ∧
      (∀ m, n + 1 + Chore.all.length ≤ m → started s log arrivals m = stopped) ∧
      (∀ m, (started s log arrivals m).phase =
        if m < n + 1 + Chore.all.length then .running else .stopped) ∧
      (∀ m, (started s log arrivals m).worker.calls <:+ last :: earlier ∧
        LoggedCall.Made log (started s log arrivals m).worker.calls
          (started s log arrivals m).worker.log) ∧
      ∀ isOpen : σ → Prop, LogSink.LiveUntilFinalized isOpen → isOpen log →
        (∀ calls log', calls <:+ last :: earlier → LoggedCall.Made log calls log' →
          (LogSink.isLive log' = true ↔ LoggedCall.Unfinalized calls)) ∧
        ∀ m, (started s log arrivals m).phase = .stopped →
          LogSink.isLive (started s log arrivals m).worker.log = false := by
  intro left stopped
  obtain ⟨reason, hrun, hunfinalized, hforever, hphase⟩ := released_of_left hin hout
  obtain ⟨last, earlier, hcalls, hlast, hearlier, hsuffix, hnow, hlower, hupper⟩ :=
    Tailer.release_finalizes hunfinalized s
  have hstopped := hforever _ (Nat.le_refl _)
  have hstays : ∀ m, n + 1 + Chore.all.length ≤ m → started s log arrivals m = stopped :=
    fun m hm => (hforever m hm).trans hstopped.symm
  have hworker : stopped.worker = left.worker.release s := by
    rw [show stopped = _ from hstopped]
  rw [← hworker] at hrun hcalls hnow
  have hmoment : ∀ m, (started s log arrivals m).worker.calls <:+ last :: earlier ∧
      LoggedCall.Made log (started s log arrivals m).worker.calls
        (started s log arrivals m).worker.log := by
    intro m
    have hsofar := started_calls s log arrivals m (n + 1 + Chore.all.length)
    rw [hstays _ (Nat.le_add_left _ m), hcalls] at hsofar
    exact hsofar
  refine ⟨reason, last, earlier, hrun, hcalls, hlast, hearlier, hsuffix, hlower, hupper, hnow,
    hstays, hphase, hmoment, ?_⟩
  intro isOpen hsink hopen
  have hlive : ∀ calls log', calls <:+ last :: earlier → LoggedCall.Made log calls log' →
      (LogSink.isLive log' = true ↔ LoggedCall.Unfinalized calls) :=
    fun calls log' hin hmade => hmade.isLive_iff hsink hopen hin hlast hearlier
  refine ⟨hlive, ?_⟩
  intro m hm
  have hend : n + 1 + Chore.all.length ≤ m := by
    rw [hphase m] at hm
    split at hm
    · cases hm
    · omega
  obtain ⟨hwithin, hmade⟩ := hmoment m
  rw [hstays m hend] at hwithin hmade ⊢
  have hnot : ¬LoggedCall.Unfinalized stopped.worker.calls := by
    rw [hcalls]
    exact fun hnone => hnone last List.mem_cons_self hlast
  exact Bool.eq_false_iff.mpr (mt (hlive _ _ hwithin hmade).mp hnot)

/-- A transport that stays open and half a character in a log that was just opened: the loop is left
at 10, and the transport is waited for until 30. -/
theorem stopped_of_left_of_open_transport :
    let s : Surroundings := ⟨⟨10, 5, 20, false⟩, fun _ _ => true, some 3, .strict⟩
    let arrivals : List Arrival := [⟨0, .bytes [1, 0, 0, 0, 0, 0, 0, 1, 195]⟩]
    let disk : Disk := ⟨[(["log".toList], .file 0 [])], 1⟩
    let log : DiskLog := ⟨disk, ⟨"log".toList, none, some ⟨0, []⟩, true⟩, []⟩
    let left := started s log arrivals 1
    let stopped := started s log arrivals (1 + Chore.all.length)
    log.IsOpen ∧ left.worker.now = 10 ∧
      ∃ last earlier, stopped.worker.calls = last :: earlier ∧ last.call = .finalize ∧
        LoggedCall.Unfinalized earlier ∧ last.time ≤ 30 ∧
        (∀ m, (started s log arrivals m).phase = if m < 1 + Chore.all.length then .running
          else .stopped) ∧
        ∀ m, (started s log arrivals m).phase = .stopped →
          (started s log arrivals m).worker.log.log.live = false := by
  intro s arrivals disk log left stopped
  have hopened : FileLog.openOn .empty "log".toList ⟨0⟩ [] false = (.ok log.log, disk) := rfl
  have hopen : log.IsOpen := DiskLog.isOpen_of_openOn hopened []
  have hin : (started s log arrivals 0).leaving = none := rfl
  have hout : ((started s log arrivals 1).leaving.isSome, left.worker.now) = (true, 10) := by
    decide +kernel
  obtain ⟨hleft, hnow⟩ := Prod.mk.inj hout
  obtain ⟨-, last, earlier, -, hcalls, hlast, hearlier, -, -, htime, -, -, hphase, -, hlive⟩ :=
    stopped_of_left hin (Option.isSome_iff_ne_none.mp hleft)
  rw [show (started s log arrivals (0 + 1)).worker.now = 10 from hnow] at htime
  exact ⟨hopen, hnow, last, earlier, hcalls, hlast, hearlier, htime, hphase,
    (hlive _ DiskLog.liveUntilFinalized hopen).2⟩

end Task

end BuildStep
