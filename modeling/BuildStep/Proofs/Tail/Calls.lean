import BuildStep.Log.Memory
import BuildStep.Log.Unreliable
import BuildStep.Tail.Tailer

/-!
# The calls that a tailer makes

A tailer keeps a record of its calls on the log, last to first.  The log is what these calls have
made of it, one after the other, and each is recorded as it went: nothing else touches the log.  So
what is said of the calls is said of the log, as far as a call that succeeds does what it should.

## Key results

- `LoggedCall.Made.contents_eq`: a log whose calls all succeed has gained their text
- `LoggedCall.KeptByWriting.pass`, `.appendRests`: what writing keeps, a tailer keeps
- `LoggedCall.KeptByCalls.release`: and what all calls keep, a release keeps
- `Recorded.release`: the calls on record made the log what it is
-/

namespace BuildStep

variable {σ : Type}

namespace LoggedCall

/-- The text that was appended by some calls, given last to first. -/
def appended : List LoggedCall → Text
  | [] => []
  | c :: earlier => appended earlier ++ if c.succeeded then c.call.text else []

/-- The text that was there when a call flushed the log last. -/
def flushed : List LoggedCall → Text
  | [] => []
  | c :: earlier =>
    match c.call with
    | .append _ => flushed earlier
    | _ => if c.succeeded then appended earlier else flushed earlier

/-- Calls, given last to first, that were made on one log, and went as the record has it. -/
inductive Made [LogSink σ] (log : σ) : List LoggedCall → σ → Prop
  | none : Made log [] log
  | call {calls : List LoggedCall} {log' : σ} (earlier : Made log calls log') (time : Nat)
    (c : LogCall) :
    Made log (⟨time, c, (c.perform log').1.isOk⟩ :: calls) (c.perform log').2

end LoggedCall

/-! ## Logs that do what they say -/

/-- A kind of log whose calls add their text if they succeed.  If they fail, they may have done
anything. -/
def LogSink.Faithful [LogSink σ] (contents : σ → Text) : Prop :=
  ∀ log (c : LogCall), (c.perform log).1.isOk = true →
    contents (c.perform log).2 = contents log ++ c.text

theorem MemoryLog.faithful : LogSink.Faithful MemoryLog.contents := by
  intro log c hok
  cases c with
  | append t =>
    change (log.append t).1.isOk = true at hok
    change (log.append t).2.contents = log.contents ++ t
    unfold append at hok ⊢
    split
    · rfl
    · rename_i hlive
      rw [if_neg hlive] at hok
      cases hok
  | flush => exact (List.append_nil log.contents).symm
  | finalize =>
    change log.finalize.contents = log.contents ++ []
    rw [List.append_nil, finalize]
    split <;> rfl

/-- A log is as faithful as the one it stands in front of. -/
theorem UnreliableLog.faithful [LogSink σ] {contents : σ → Text}
    (h : LogSink.Faithful contents) :
    LogSink.Faithful fun u : UnreliableLog σ => contents u.log := by
  intro u c hok
  have hperform : c.perform u = u.call c := by cases c <;> rfl
  rw [hperform] at hok ⊢
  unfold call at hok ⊢
  dsimp only at hok ⊢
  split
  · rename_i hfails
    rw [if_pos hfails] at hok
    cases hok
  · rename_i hpassed
    rw [if_neg hpassed] at hok
    exact h u.log c hok

/-- A log whose calls all succeed has gained their text. -/
theorem LoggedCall.Made.contents_eq [LogSink σ] {contents : σ → Text}
    (hfaithful : LogSink.Faithful contents) {log log' : σ} {calls : List LoggedCall}
    (h : Made log calls log') (hall : ∀ c ∈ calls, c.succeeded = true) :
    contents log' = contents log ++ appended calls := by
  induction h with
  | none => exact (List.append_nil _).symm
  | call earlier time c ih =>
    obtain ⟨hok, hall⟩ := List.forall_mem_cons.mp hall
    rw [hfaithful _ c hok, ih hall, appended, if_pos hok, List.append_assoc]

/-! ## What calls keep -/

namespace LoggedCall

variable [LogSink σ]

/-- What is said of a log and of the calls that made it, if it stays true whatever call follows. -/
def KeptByCalls (P : List LoggedCall → σ → Prop) : Prop :=
  ∀ calls log time (c : LogCall), P calls log →
    P (⟨time, c, (c.perform log).1.isOk⟩ :: calls) (c.perform log).2

/-- The same, if it stays true as long as the log is only written to, and not finalized. -/
def KeptByWriting (P : List LoggedCall → σ → Prop) : Prop :=
  ∀ calls log time (c : LogCall), c ≠ .finalize → P calls log →
    P (⟨time, c, (c.perform log).1.isOk⟩ :: calls) (c.perform log).2

theorem KeptByCalls.keptByWriting {P : List LoggedCall → σ → Prop} (hP : KeptByCalls P) :
    KeptByWriting P :=
  fun calls log time c _ h => hP calls log time c h

theorem keptByCalls_made (log : σ) : KeptByCalls (Made log) :=
  fun _ _ time c h => h.call time c

theorem keptByCalls_suffix (calls : List LoggedCall) :
    KeptByCalls (σ := σ) fun later _ => calls <:+ later :=
  fun later _ _ _ h => h.trans (List.suffix_cons _ later)

end LoggedCall

namespace LoggedCall.KeptByWriting

open Tailer

variable [LogSink σ] {P : List LoggedCall → σ → Prop} {w : Tailer σ}

theorem call (hP : KeptByWriting P) (h : P w.calls w.log) {c : LogCall} (hc : c ≠ .finalize) :
    P (w.call c).2.calls (w.call c).2.log :=
  hP w.calls w.log w.now c hc h

theorem appendText (hP : KeptByWriting P) (h : P w.calls w.log) (t : Text) :
    P (w.appendText t).2.calls (w.appendText t).2.log := by
  unfold Tailer.appendText
  split
  · exact h
  · exact hP.call h (by simp)

omit [LogSink σ] in
theorem of_await {w' : Tailer σ} {patience : Nat} {answer : Answer} (h : P w.calls w.log)
    (hawait : w.await patience = (answer, w')) : P w'.calls w'.log := by
  cases hawait
  exact h

theorem of_deliver {w' : Tailer σ} {f : Frame} {result : Except IoError Unit}
    (hP : KeptByWriting P) (h : P w.calls w.log) (hdeliver : w.deliver f = (result, w')) :
    P w'.calls w'.log := by
  have happend := hP.appendText
    (w := { w with decoder := (w.decoder.decode f.stream f.payload).2 }) h
    (w.decoder.decode f.stream f.payload).1
  unfold Tailer.deliver at hdeliver
  dsimp only at hdeliver
  split at hdeliver
  · rename_i heq
    rw [heq] at happend
    cases hdeliver
    exact happend
  · rename_i heq
    rw [heq] at happend
    cases hdeliver
    exact happend

theorem takeFrames (hP : KeptByWriting P) (h : P w.calls w.log) (c : Settings) (started : Nat)
    (any : Bool) :
    P (takeFrames c started any w).2.2.calls (takeFrames c started any w).2.2.log := by
  fun_induction Tailer.takeFrames c started any w with
  | case1 any w hover => exact h
  | case2 any w hover w' hawait => exact of_await h hawait
  | case3 any w hover w' hawait => exact of_await h hawait
  | case4 any w hover e w' hawait => exact of_await h hawait
  | case5 any w hover f waited hawait e w' hdeliver =>
    exact hP.of_deliver (of_await h hawait) hdeliver
  | case6 any w hover f waited hawait delivered hdeliver ih =>
    exact ih (hP.of_deliver (of_await h hawait) hdeliver)

theorem pass (hP : KeptByWriting P) (h : P w.calls w.log) (c : Settings) :
    P (w.pass c).2.calls (w.pass c).2.log := by
  have htaken := hP.takeFrames h c w.now false
  unfold Tailer.pass
  generalize Tailer.takeFrames c w.now false w = taking at htaken ⊢
  obtain ⟨ending, any, w₁⟩ := taking
  cases any with
  | false => exact htaken
  | true =>
    have hflushed := hP.call htaken (c := .flush) (by simp)
    dsimp only
    generalize Tailer.call w₁ .flush = flushing at hflushed ⊢
    obtain ⟨result, w₂⟩ := flushing
    cases result with
    | ok _ => exact hflushed
    | error e => exact hflushed

theorem appendRests (hP : KeptByWriting P) (h : P w.calls w.log) (streams : List StreamType) :
    P (w.appendRests streams).calls (w.appendRests streams).log := by
  induction streams generalizing w with
  | nil => exact h
  | cons stream streams ih =>
    have happend := hP.appendText (w := { w with decoder := (w.decoder.finish stream).2 }) h
      (w.decoder.finish stream).1
    exact ih happend

omit [LogSink σ] in
theorem of_releaseTransport (h : P w.calls w.log) (drain : Drain) (patience : Nat) :
    P (w.releaseTransport drain patience).calls (w.releaseTransport drain patience).log := by
  unfold Tailer.releaseTransport
  split
  · exact h
  · split <;> exact h

end LoggedCall.KeptByWriting

/-- A release writes, and then finalizes the log. -/
theorem LoggedCall.KeptByCalls.release [LogSink σ] {P : List LoggedCall → σ → Prop}
    (hP : KeptByCalls P) {w : Tailer σ} (h : P w.calls w.log) (s : Surroundings) :
    P (w.release s).calls (w.release s).log := by
  have hrests := hP.keptByWriting.appendRests h StreamType.all
  have hreleased := KeptByWriting.of_releaseTransport hrests s.drain s.settings.releaseTimeout
  exact hP _ _ _ .finalize hreleased

namespace Tailer

variable [LogSink σ] {log : σ} {w : Tailer σ}

/-! ## The record of a tailer -/

/-- The log is what the calls on record have made of it. -/
def Recorded (log : σ) (w : Tailer σ) : Prop :=
  LoggedCall.Made log w.calls w.log

theorem recorded_new (log : σ) (arrivals : List Arrival) : Recorded log (new log arrivals) :=
  .none

theorem Recorded.release (h : Recorded log w) (s : Surroundings) : Recorded log (w.release s) :=
  (LoggedCall.keptByCalls_made log).release h s

end Tailer

end BuildStep
