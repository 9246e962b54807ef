import BuildStep.Stream.Transport

/-! # Reading a transport to its end

A transport may have to be read to its end before it can be used again.  A `Drain` is any way to do
so: it reads in order, waits while the transport is not ready, and counts the bytes.  Drains differ
in what they make of a read that fails.

* `Drain.PassesErrors`: every read that fails ends the reading.
* `Drain.Repeats`: a read that was interrupted is made again.
* `Drain.repeating`: there is a drain for each choice of failures after which to read on. -/

namespace BuildStep

/-- How reading all the rest of a transport ends. -/
inductive Drained
  /-- Its end was reached after this many bytes. -/
  | all (count : Nat)
  /-- A read failed. -/
  | failed (e : IoError)
  /-- It is silent, and its end was not reached. -/
  | waiting
deriving DecidableEq, Repr

/-- The same, with some bytes that were read before. -/
def Drained.after (count : Nat) : Drained → Drained
  | .all n => .all (count + n)
  | other => other

/-- A way to read a transport to its end. -/
structure Drain where
  run : Transport → Drained
  run_ended : ∀ {t t' : Transport}, t.read = (.ended, t') → run t = .all 0
  run_bytes : ∀ {t t' : Transport} {bs : List UInt8}, t.read = (.bytes bs, t') →
    run t = (run t').after bs.length
  run_notReady : ∀ {t t' : Transport}, t.read = (.notReady, t') →
    run t = if t' = t then .waiting else run t'
  /-- A read that fails ends the reading, unless it was interrupted and is made again. -/
  run_failed : ∀ {t t' : Transport} {e : IoError}, t.read = (.failed e, t') →
    run t = .failed e ∨ e.isTransient = true ∧ run t = run t'

namespace Drain

/-- Reads that were interrupted are made again. -/
def Repeats (drain : Drain) : Prop :=
  ∀ {t t' : Transport} {e : IoError}, t.read = (.failed e, t') → e.isTransient = true →
    drain.run t = drain.run t'

/-- Reads to the end, and goes on after the failures that `again` names. -/
def runFrom (again : IoError → Bool) (ending : Ending) : List Reply → Drained
  | [] =>
    match ending with
    | .closed => .all 0
    | .silent => .waiting
  | .ended :: _ => .all 0
  | .bytes [] :: _ => .all 0
  | .bytes (b :: bs) :: rest => (runFrom again ending rest).after (b :: bs).length
  | .notReady :: rest => runFrom again ending rest
  | .failed e :: rest => if again e then runFrom again ending rest else .failed e

/-- One read, and what it leads to. -/
theorem runFrom_read (again : IoError → Bool) {t t' : Transport} {reply : Reply}
    (h : t.read = (reply, t')) :
    runFrom again t.ending t.replies =
      match reply with
      | .ended => .all 0
      | .bytes bs => (runFrom again t'.ending t'.replies).after bs.length
      | .notReady => if t' = t then .waiting else runFrom again t'.ending t'.replies
      | .failed e => if again e then runFrom again t'.ending t'.replies else .failed e := by
  obtain ⟨replies, ending⟩ := t
  cases replies with
  | nil => cases ending <;> cases h <;> rfl
  | cons first rest =>
    cases first with
    | bytes bs => cases bs <;> cases h <;> rfl
    | ended => cases h; rfl
    | failed e => cases h; rfl
    | notReady =>
      cases h
      -- a reply was used up, so the transport is not the same
      exact (if_neg fun hsame => List.cons_ne_self _ _ (congrArg Transport.replies hsame).symm).symm

/-- The drain that goes on after the failures that `again` names, all of them interruptions. -/
def repeating (again : IoError → Bool) (hagain : ∀ e, again e = true → e.isTransient = true) :
    Drain where
  run t := runFrom again t.ending t.replies
  run_ended h := runFrom_read again h
  run_bytes h := runFrom_read again h
  run_notReady h := runFrom_read again h
  run_failed {_ _ e} h := by
    rw [runFrom_read again h]
    by_cases he : again e = true
    · exact .inr ⟨hagain e he, if_pos he⟩
    · exact .inl (if_neg he)

/-- The drain that goes on after no failure. -/
def strict : Drain :=
  repeating (fun _ => false) fun _ h => nomatch h

end Drain

end BuildStep
