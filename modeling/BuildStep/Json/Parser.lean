import BuildStep.Json.Tree

/-!
# Reading JSON

`JsonTree.parse?` reads a whole text as one value.  A function that reads part of a text gives back
what it found and the rest of the text.  The functions that read values are bounded by a number
that goes down with each of them; the length of the text is always enough, because each value has
a character of its own.
-/

namespace BuildStep.JsonTree

/-- The blanks that may stand between the parts of a value. -/
def isSpace (c : Char) : Bool :=
  c = ' ' || c = '\t' || c = '\n' || c = '\r'

/-- The text without the blanks in front. -/
def skip (t : Text) : Text :=
  t.dropWhile isSpace

/-- A text cut at its first quote that no backslash escapes; the quote is dropped. -/
def cutQuote? : Text → Option (Text × Text)
  | [] => none
  | '"' :: rest => some ([], rest)
  | '\\' :: c :: rest => (cutQuote? rest).map fun p => ('\\' :: c :: p.1, p.2)
  | c :: rest => (cutQuote? rest).map fun p => (c :: p.1, p.2)

/-- Reads a literal and its closing quote. -/
def readLiteral? (t : Text) : Option (Text × Text) :=
  (cutQuote? t).filter fun p => JsonLiteral.isWellFormed p.1

/-- Reads one or more digits. -/
def readDigits? (t : Text) : Option (Text × Text) :=
  let digits := t.takeWhile Char.isDigit
  if digits.isEmpty then none else some (digits, t.dropWhile Char.isDigit)

/-- Reads a sign if `p` admits it. -/
def readSign (p : Char → Bool) : Text → Text × Text
  | c :: rest => if p c then ([c], rest) else ([], c :: rest)
  | [] => ([], [])

/-- Reads the whole part of a number, which has no leading zero. -/
def readWhole? : Text → Option (Text × Text)
  | '0' :: rest => some (['0'], rest)
  | t => readDigits? t

/-- Reads a fraction if there is a point. -/
def readFraction? : Text → Option (Text × Text)
  | '.' :: rest => (readDigits? rest).map fun p => ('.' :: p.1, p.2)
  | t => some ([], t)

/-- Reads an exponent if there is a mark. -/
def readExponent? : Text → Option (Text × Text)
  | c :: rest =>
    if c = 'e' ∨ c = 'E' then
      let (sign, rest) := readSign (fun c => c = '+' || c = '-') rest
      (readDigits? rest).map fun p => (c :: sign ++ p.1, p.2)
    else some ([], c :: rest)
  | [] => some ([], [])

/-- Reads a number. -/
def readNumber? (t : Text) : Option (Text × Text) := do
  let (sign, t) := readSign (· = '-') t
  let (whole, t) ← readWhole? t
  let (fraction, t) ← readFraction? t
  let (exponent, t) ← readExponent? t
  return (sign ++ whole ++ fraction ++ exponent, t)

/-- Reads the name of a member, and the colon after it. -/
def readName? (t : Text) : Option (Text × Text) :=
  match skip t with
  | '"' :: rest => do
    let (name, rest) ← readLiteral? rest
    match skip rest with
    | ':' :: rest => some (name, rest)
    | _ => none
  | _ => none

mutual

/-- Reads a value. -/
def readValue? : (fuel : Nat) → Text → Option (JsonTree × Text)
  | 0, _ => none
  | fuel + 1, t =>
    match skip t with
    | 'n' :: 'u' :: 'l' :: 'l' :: rest => some (.null, rest)
    | 't' :: 'r' :: 'u' :: 'e' :: rest => some (.bool true, rest)
    | 'f' :: 'a' :: 'l' :: 's' :: 'e' :: rest => some (.bool false, rest)
    | '"' :: rest => (readLiteral? rest).map fun p => (.string p.1, p.2)
    | '[' :: rest =>
      match skip rest with
      | ']' :: rest => some (.array [], rest)
      | _ => (readElements? fuel rest).map fun p => (.array p.1, p.2)
    | '\x7b' :: rest =>
      match skip rest with
      | '\x7d' :: rest => some (.object [], rest)
      | _ => (readMembers? fuel rest).map fun p => (.object p.1, p.2)
    | t => (readNumber? t).map fun p => (.number p.1, p.2)

/-- Reads elements up to the end of their array. -/
def readElements? : (fuel : Nat) → Text → Option (List JsonTree × Text)
  | 0, _ => none
  | fuel + 1, t => do
    let (v, rest) ← readValue? fuel t
    match skip rest with
    | ']' :: rest => some ([v], rest)
    | ',' :: rest => (readElements? fuel rest).map fun p => (v :: p.1, p.2)
    | _ => none

/-- Reads members up to the end of their object. -/
def readMembers? : (fuel : Nat) → Text → Option (List (Text × JsonTree) × Text)
  | 0, _ => none
  | fuel + 1, t => do
    let (name, rest) ← readName? t
    let (v, rest) ← readValue? fuel rest
    match skip rest with
    | '\x7d' :: rest => some ([(name, v)], rest)
    | ',' :: rest => (readMembers? fuel rest).map fun p => ((name, v) :: p.1, p.2)
    | _ => none

end

/-- The value that a text writes, if it writes one and nothing else. -/
def parse? (t : Text) : Option JsonTree :=
  match readValue? (2 * t.length + 1) t with
  | some (j, rest) => if (skip rest).isEmpty then some j else none
  | none => none

end BuildStep.JsonTree
