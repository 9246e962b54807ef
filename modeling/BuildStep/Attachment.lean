import BuildStep.Text.Basic

/-! # Names of attachments

Every attachment to a container has a 128-bit identifier, written as thirty-two hexadecimal digits
in groups of eight, four, four, four and twelve. -/

namespace BuildStep

/-- The identifier of an attachment. -/
structure Attachment where
  value : Nat
deriving DecidableEq, Repr

namespace Attachment

/-- The last `count` hexadecimal digits of a number, most significant first. -/
def hexDigits : (count n : Nat) → Text
  | 0, _ => []
  | count + 1, n => hexDigits count (n / 16) ++ [Nat.digitChar (n % 16)]

/-- Lengths of the groups of digits. -/
def groups : List Nat := [8, 4, 4, 4, 12]

/-- The digits cut into groups. -/
def group : List Nat → Text → List Text
  | [], _ => []
  | n :: lengths, digits => digits.take n :: group lengths (digits.drop n)

/-- The written form of the identifier. -/
def render (a : Attachment) : Text :=
  List.intercalate ['-'] (group groups (hexDigits 32 a.value))

end Attachment

end BuildStep
