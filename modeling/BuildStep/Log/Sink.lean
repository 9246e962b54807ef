import BuildStep.IoError
import BuildStep.Text.Basic

/-! # Logs as the writer sees them

A writer appends text, flushes what it has appended so that readers see it, and finalizes the log
when it is complete.  Any of these calls may fail, and a failed call may still have changed the
log. -/

namespace BuildStep

/-- A kind of log that can be written to.  Each call answers whether it succeeded, and the log
after it. -/
class LogSink (σ : Type) where
  /-- Adds text at the end. -/
  append : σ → Text → Except IoError Unit × σ
  /-- Lets readers see everything appended so far. -/
  flush : σ → Except IoError Unit × σ
  /-- Flushes, and declares the log complete. -/
  finalize : σ → Except IoError Unit × σ
  /-- The log is still being written. -/
  isLive : σ → Bool

/-- A call of a writer. -/
inductive LogCall
  | append (t : Text)
  | flush
  | finalize
deriving DecidableEq, Repr

/-- The call, carried out. -/
def LogCall.perform {σ : Type} [LogSink σ] (log : σ) : LogCall → Except IoError Unit × σ
  | .append t => LogSink.append log t
  | .flush => LogSink.flush log
  | .finalize => LogSink.finalize log

/-- The text a call would add. -/
def LogCall.text : LogCall → Text
  | .append t => t
  | _ => []

end BuildStep
