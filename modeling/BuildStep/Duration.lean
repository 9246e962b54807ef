/-! # Lengths of time

A length of time, and a time since the start of a clock, is a number of nanoseconds, so that lengths
are compared exactly; people are shown whole milliseconds. -/

namespace BuildStep.Duration

def nanosPerMilli : Nat := 1000000

def nanosPerSecond : Nat := 1000000000

/-- The length of `n` milliseconds. -/
def ofMillis (n : Nat) : Nat :=
  n * nanosPerMilli

/-- The length of some seconds and nanoseconds. -/
def ofParts (seconds nanos : Nat) : Nat :=
  seconds * nanosPerSecond + nanos

/-- Whole milliseconds, rounded down. -/
def millis (d : Nat) : Nat :=
  d / nanosPerMilli

/-- Whole seconds and the nanoseconds beyond them. -/
def parts (d : Nat) : Nat × Nat :=
  (d / nanosPerSecond, d % nanosPerSecond)

end BuildStep.Duration
