import BuildStep.Log.Memory
import BuildStep.Tail.Tailer

/-! # Runs that are known in advance

A `Scenario` fixes everything a tailer meets: what its transport gives and when, how long the build
runs, and when the tailer is asked to stop.  Once the last of these times has passed nothing new
happens, so it is known how many rounds can make a difference.

* `Scenario.run` tails to the end, or finds that there is none.
* `LoggedCall.replay` gives a log in memory as it stood at any time. -/

namespace BuildStep

/-- How long a build is said to run. -/
inductive BuildPlan
  /-- For ever. -/
  | endless
  /-- Before a certain time. -/
  | until (time : Nat)
  /-- The first times that somebody asks. -/
  | forChecks (count : Nat)
deriving DecidableEq, Repr

namespace BuildPlan

/-- The build is said to run, by the time and the number of times this was asked before. -/
def running : BuildPlan → Nat → Nat → Bool
  | .endless, _, _ => true
  | .until time, now, _ => now < time
  | .forChecks count, _, asked => asked < count

/-- From when on the time makes no difference to whether the build runs. -/
def settledBy : BuildPlan → Nat
  | .until time => time
  | _ => 0

/-- After how many questions their number makes no difference. -/
def settledAfter : BuildPlan → Nat
  | .forChecks count => count
  | _ => 0

end BuildPlan

/-- Everything that a tailer meets. -/
structure Scenario where
  settings : Settings
  arrivals : List Arrival
  build : BuildPlan
  stopAt : Option Nat
  /-- How the rest of the transport is read in the end. -/
  drain : Drain

namespace Scenario

/-- What goes on around the tailer. -/
def surroundings (s : Scenario) : Surroundings :=
  ⟨s.settings, s.build.running, s.stopAt, s.drain⟩

/-- The time after which nothing new happens. -/
def quietFrom (s : Scenario) : Nat :=
  (s.arrivals.map Arrival.time).foldl max (max s.build.settledBy (s.stopAt.getD 0))

/-- How many rounds can make a difference.  Each round before the last takes `pollInterval`, so
after this many all that will happen has happened. -/
def roundsNeeded (s : Scenario) : Nat :=
  s.quietFrom / s.settings.pollInterval + s.build.settledAfter + 3

/-- Tails from the start to the end with the given log; nothing if the tailer never stops. -/
def run {σ : Type} [LogSink σ] (s : Scenario) (log : σ) : Option (StopReason × Tailer σ) :=
  (Tailer.new log s.arrivals).run s.surroundings s.roundsNeeded

end Scenario

/-- A log after the calls that succeeded before a certain time, given in order. -/
def LoggedCall.replay {σ : Type} [LogSink σ] (before : Nat) (calls : List LoggedCall) (log : σ) :
    σ :=
  calls.foldl
    (fun log c => if c.succeeded && c.time < before then (c.call.perform log).2 else log) log

end BuildStep
