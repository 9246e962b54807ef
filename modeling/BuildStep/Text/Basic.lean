/-! # Text as a list of characters

Everything this library reads or writes is looked at one character at a time: records are cut at
delimiters, blanks are stripped from their ends, logs are cut into lines.  `Text` is therefore a
list of characters, and `String` appears only where fixed wording is written down.

* `Text.isBlank` is the Unicode property *White_Space*, as a table of ranges.
* `Text.trim` strips blanks from both ends, `Text.words` lists the maximal runs without blanks.
* `Text.cutLast?` cuts at the last character with a property.
* `Text.lines` lists the lines of a log, whose terminators are `\n` and `\r\n`. -/

namespace BuildStep

/-- A sequence of Unicode scalar values. -/
abbrev Text := List Char

namespace Text

/-- The first and last code point of each range of the property *White_Space*. -/
def blankRanges : List (Nat × Nat) :=
  [(0x09, 0x0D), (0x20, 0x20), (0x85, 0x85), (0xA0, 0xA0), (0x1680, 0x1680), (0x2000, 0x200A),
    (0x2028, 0x2029), (0x202F, 0x202F), (0x205F, 0x205F), (0x3000, 0x3000)]

/-- The character has the property *White_Space*. -/
def isBlank (c : Char) : Bool :=
  blankRanges.any fun r => r.1 ≤ c.toNat && c.toNat ≤ r.2

/-- The text without the blanks it starts with. -/
def trimStart (t : Text) : Text :=
  t.dropWhile isBlank

/-- The text without the blanks it ends with. -/
def trimEnd (t : Text) : Text :=
  (t.reverse.dropWhile isBlank).reverse

/-- The text without the blanks at both of its ends. -/
def trim (t : Text) : Text :=
  trimEnd (trimStart t)

/-- The maximal runs of characters that are not blank, in order. -/
def words (t : Text) : List Text :=
  (t.splitOnP isBlank).filter fun w => !w.isEmpty

/-- The text before and after the last character with property `p`, if there is one. -/
def cutLast? (p : Char → Bool) : Text → Option (Text × Text)
  | [] => none
  | c :: rest =>
    match cutLast? p rest with
    | some (before, after) => some (c :: before, after)
    | none => if p c then some ([], rest) else none

/-- A line without the carriage return that its terminator begins with. -/
def dropReturn (line : Text) : Text :=
  if line.getLast? = some '\r' then line.dropLast else line

/-- The lines of a text.  A line ends at `\n` or `\r\n`; what follows the last terminator is a
line of its own unless it is empty, and keeps a carriage return at its end. -/
def lines (t : Text) : List Text :=
  let parts := t.splitOn '\n'
  parts.dropLast.map dropReturn ++
    match parts.getLast? with
    | some last => if last.isEmpty then [] else [last]
    | none => []

/-- ASCII letters in lower case, all other characters as they are. -/
def toLowerAscii (t : Text) : Text :=
  t.map Char.toLower

/-- The text, filled up with spaces to at least `n` characters. -/
def padEnd (n : Nat) (t : Text) : Text :=
  t ++ List.replicate (n - t.length) ' '

/-- The text after as many spaces as it takes to come to at least `n` characters. -/
def padStart (n : Nat) (t : Text) : Text :=
  List.replicate (n - t.length) ' ' ++ t

end Text

end BuildStep
