import BuildStep.Log.Sink
import BuildStep.Text.Utf8

/-! # A log in memory

A `MemoryLog` keeps its text, the number of bytes of it that were flushed, and whether it is live.
Everyone who holds the log sees the same one.

* `MemoryLog.flushedContents?` is the text of the flushed bytes; it is there only if they end
  between two characters.
* Text is refused once the log is finalized. -/

namespace BuildStep

/-- The start of a text that is written in exactly `n` bytes, behind the characters of `seen`,
which are given last to first. -/
def Text.prefixOfSizeFrom? (seen : Text) : Nat → Text → Option Text
  | 0, _ => some seen.reverse
  | _ + 1, [] => none
  | n + 1, c :: rest =>
    if c.utf8Size ≤ n + 1 then prefixOfSizeFrom? (c :: seen) (n + 1 - c.utf8Size) rest else none

/-- The start of a text that is written in exactly `n` bytes, if such a start ends between two
characters. -/
def Text.prefixOfSize? (n : Nat) (t : Text) : Option Text :=
  prefixOfSizeFrom? [] n t

/-- A log that only this process can read. -/
structure MemoryLog where
  contents : Text
  /-- Number of bytes that readers of flushed text see. -/
  flushed : Nat
  live : Bool
deriving DecidableEq, Repr

namespace MemoryLog

/-- A log that nothing was written to. -/
def new : MemoryLog := ⟨[], 0, true⟩

/-- The error of a write to a finalized log. -/
def finalizedError : IoError := ⟨.brokenPipe, "log is already finalized"⟩

/-- Adds text to a live log. -/
def append (log : MemoryLog) (t : Text) : Except IoError Unit × MemoryLog :=
  if log.live then (.ok (), { log with contents := log.contents ++ t })
  else (.error finalizedError, log)

/-- Lets readers see all text. -/
def flush (log : MemoryLog) : MemoryLog :=
  { log with flushed := Utf8.size log.contents }

/-- Flushes a live log and ends it; a finalized log stays as it is. -/
def finalize (log : MemoryLog) : MemoryLog :=
  if log.live then { log.flush with live := false } else log

/-- The text that was flushed. -/
def flushedContents? (log : MemoryLog) : Option Text :=
  Text.prefixOfSize? log.flushed log.contents

instance : LogSink MemoryLog where
  append := append
  flush log := (.ok (), log.flush)
  finalize log := (.ok (), log.finalize)
  isLive := live

end MemoryLog

/-- A log in memory that several holders write to: each of them sees what any of them did. -/
structure SharedLog where
  log : MemoryLog
  /-- Number of holders. -/
  holders : Nat
deriving DecidableEq, Repr

/-- What a holder does with a shared log. -/
inductive SharedLog.Step
  | call (c : LogCall)
  /-- Makes one more holder. -/
  | clone
deriving DecidableEq, Repr

/-- One step of one holder; which holder takes it makes no difference. -/
def SharedLog.step (s : SharedLog) : SharedLog.Step → Except IoError Unit × SharedLog
  | .call c =>
    let (result, log) := c.perform s.log
    (result, { s with log := log })
  | .clone => (.ok (), { s with holders := s.holders + 1 })

/-- A new log with one holder. -/
def SharedLog.new : SharedLog := ⟨.new, 1⟩

end BuildStep
