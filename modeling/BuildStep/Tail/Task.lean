import BuildStep.Tail.Tailer

/-! # The task that a tailer works in

Whoever starts a tailer keeps a handle on it and sees no more of it than a phase and its log.  The
tailer itself is a task that goes on step by step: it makes rounds until there is a reason to leave
its loop, and then does its chores, each of them whatever came of those before.  The last one is to
let others see that it has stopped.

* `Chore.perform` is one of the things to be done after the loop, `Chore.all` is all of them.
* `Task.step` is one step of the task, `Task.after` is any number of them, `Task.started` those of a
  task from its start on. -/

namespace BuildStep

/-- What is seen of a tailer. -/
inductive Phase
  /-- It was not started. -/
  | idle
  | running
  /-- It has released everything. -/
  | stopped
deriving DecidableEq, Repr

/-- Something that is done once a tailer has left its loop. -/
inductive Chore
  /-- The unfinished character of a stream is appended. -/
  | appendRest (s : StreamType)
  /-- The rest of the transport is thrown away. -/
  | releaseTransport
  /-- The log is finalized. -/
  | finalize
  /-- The phase is changed. -/
  | announce
deriving DecidableEq, Repr

namespace Chore

/-- All that is done, in order. -/
def all : List Chore :=
  StreamType.all.map appendRest ++ [releaseTransport, finalize, announce]

variable {σ : Type}

/-- Does it. -/
def perform [LogSink σ] (s : Surroundings) (w : Tailer σ) : Chore → Tailer σ
  | appendRest stream => w.appendRests [stream]
  | releaseTransport => w.releaseTransport s.drain s.settings.releaseTimeout
  | finalize => (w.call .finalize).2
  | announce => w

/-- The phase after it. -/
def phaseAfter (p : Phase) : Chore → Phase
  | announce => .stopped
  | _ => p

end Chore

/-- A tailer and where it is in its life. -/
structure Task (σ : Type) where
  worker : Tailer σ
  phase : Phase
  /-- Once it has left its loop: why, and what it has still to do. -/
  leaving : Option (StopReason × List Chore)

namespace Task

variable {σ : Type}

/-- A tailer that was not started. -/
def new (log : σ) (coming : List Arrival) : Task σ :=
  ⟨.new log coming, .idle, none⟩

/-- Starts the tailer. -/
def start (t : Task σ) : Task σ :=
  { t with phase := .running }

/-- One step: a round, or a chore.  A task that has done all its chores does nothing more. -/
def step [LogSink σ] (s : Surroundings) (t : Task σ) : Task σ :=
  match t.leaving with
  | none =>
    match t.worker.round s with
    | (none, w) => { t with worker := w }
    | (some reason, w) => { t with worker := w, leaving := some (reason, Chore.all) }
  | some (_, []) => t
  | some (reason, chore :: rest) =>
    ⟨chore.perform s t.worker, chore.phaseAfter t.phase, some (reason, rest)⟩

/-- The task after some steps. -/
def after [LogSink σ] (s : Surroundings) : Nat → Task σ → Task σ
  | 0, t => t
  | n + 1, t => after s n (t.step s)

/-- A task that was started some steps ago. -/
def started [LogSink σ] (s : Surroundings) (log : σ) (coming : List Arrival) (n : Nat) : Task σ :=
  (new log coming).start.after s n

end Task

end BuildStep
