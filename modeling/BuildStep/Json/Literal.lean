import BuildStep.Text.Basic

/-!
# String literals of JSON

A string literal is kept as it stands between its quotes.  Its escapes are read in two steps:
`pieces?` reads each character or escape by itself, `join?` puts the halves of surrogate pairs
together.  A literal with a lone half is well formed, but no text can have been meant by it.

* `unescape?_escape`: a text that was written as a literal reads back.
-/

namespace BuildStep.JsonLiteral

/-- The digit with a value below sixteen, in lower case. -/
def hexDigit (n : Nat) : Char :=
  Nat.digitChar n

/-- The value of a hexadecimal digit of either case. -/
def hexValue? (c : Char) : Option Nat :=
  if '0' ≤ c ∧ c ≤ '9' then some (c.toNat - 48)
  else if 'a' ≤ c ∧ c ≤ 'f' then some (c.toNat - 87)
  else if 'A' ≤ c ∧ c ≤ 'F' then some (c.toNat - 55)
  else none

/-- The letter that escapes a character in short form. -/
def shortEscape? (c : Char) : Option Char :=
  if c = '"' then some '"'
  else if c = '\\' then some '\\'
  else if c.toNat = 0x08 then some 'b'
  else if c.toNat = 0x0C then some 'f'
  else if c = '\n' then some 'n'
  else if c = '\r' then some 'r'
  else if c = '\t' then some 't'
  else none

/-- The character that a short escape stands for; a slash may be escaped but is not. -/
def ofShortEscape? (c : Char) : Option Char :=
  if c = '"' then some '"'
  else if c = '\\' then some '\\'
  else if c = '/' then some '/'
  else if c = 'b' then some (Char.ofNat 0x08)
  else if c = 'f' then some (Char.ofNat 0x0C)
  else if c = 'n' then some '\n'
  else if c = 'r' then some '\r'
  else if c = 't' then some '\t'
  else none

/-- A character of a literal: quotes, backslashes and control characters are escaped. -/
def escapeChar (c : Char) : Text :=
  match shortEscape? c with
  | some e => ['\\', e]
  | none =>
    if c.toNat < 0x20 then
      ['\\', 'u', '0', '0', hexDigit (c.toNat / 16), hexDigit (c.toNat % 16)]
    else [c]

/-- The literal of a text. -/
def escape (t : Text) : Text :=
  t.flatMap escapeChar

/-- What one character or escape of a literal stands for. -/
inductive Piece
  | char (c : Char)
  /-- A code unit of UTF-16, given by its number. -/
  | unit (n : Nat)
deriving DecidableEq, Repr

/-- The number that four hexadecimal digits write. -/
def unitOf? (a b c d : Char) : Option Nat := do
  let a ← hexValue? a
  let b ← hexValue? b
  let c ← hexValue? c
  let d ← hexValue? d
  return ((a * 16 + b) * 16 + c) * 16 + d

/-- The pieces of a literal, if it is well formed. -/
def pieces? : Text → Option (List Piece)
  | [] => some []
  | '\\' :: 'u' :: a :: b :: c :: d :: rest => do
    let n ← unitOf? a b c d
    return .unit n :: (← pieces? rest)
  | '\\' :: e :: rest => do
    let c ← ofShortEscape? e
    return .char c :: (← pieces? rest)
  | c :: rest =>
    if c = '"' ∨ c = '\\' ∨ c.toNat < 0x20 then none
    else do return .char c :: (← pieces? rest)

/-- The literal is well formed. -/
def isWellFormed (literal : Text) : Bool :=
  (pieces? literal).isSome

/-- The unit is the first half of a surrogate pair. -/
def isHigh (n : Nat) : Bool :=
  0xD800 ≤ n && n ≤ 0xDBFF

/-- The unit is the second half of a surrogate pair. -/
def isLow (n : Nat) : Bool :=
  0xDC00 ≤ n && n ≤ 0xDFFF

/-- The character that a surrogate pair stands for. -/
def ofPair (high low : Nat) : Char :=
  Char.ofNat (0x10000 + (high - 0xD800) * 0x400 + (low - 0xDC00))

/-- The text that pieces stand for, unless half a surrogate pair stands alone. -/
def join? : List Piece → Option Text
  | [] => some []
  | .char c :: rest => (join? rest).map (c :: ·)
  | .unit n :: rest =>
    if isHigh n then
      match rest with
      | .unit low :: rest => if isLow low then (join? rest).map (ofPair n low :: ·) else none
      | _ => none
    else if isLow n then none
    else (join? rest).map (Char.ofNat n :: ·)

/-- The text that a literal stands for. -/
def unescape? (literal : Text) : Option Text :=
  (pieces? literal).bind join?

/-- What the literal of a character reads as. -/
def pieceOf (c : Char) : Piece :=
  if (shortEscape? c).isNone ∧ c.toNat < 0x20 then .unit c.toNat else .char c

theorem hexValue?_hexDigit : ∀ n < 16, hexValue? (hexDigit n) = some n := by
  decide

theorem ofShortEscape?_shortEscape {c e : Char} (h : shortEscape? c = some e) :
    ofShortEscape? e = some c ∧ e ≠ 'u' := by
  have hc {n : Nat} (hn : c.toNat = n) : c = Char.ofNat n := by
    rw [← hn, Char.ofNat_toNat]
  unfold shortEscape? at h
  split at h
  · rename_i hq
    cases h; subst hq; decide
  split at h
  · rename_i hb
    cases h; subst hb; decide
  split at h
  · rename_i h8
    cases h; rw [hc h8]; decide
  split at h
  · rename_i h12
    cases h; rw [hc h12]; decide
  split at h
  · rename_i hn
    cases h; subst hn; decide
  split at h
  · rename_i hr
    cases h; subst hr; decide
  split at h
  · rename_i ht
    cases h; subst ht; decide
  · cases h

/-- A character that was escaped reads as one piece, whatever follows it. -/
theorem pieces?_escapeChar (c : Char) (rest : Text) :
    pieces? (escapeChar c ++ rest) = (pieces? rest).map (pieceOf c :: ·) := by
  unfold escapeChar pieceOf
  cases hs : shortEscape? c with
  | some e =>
    obtain ⟨hof, hu⟩ := ofShortEscape?_shortEscape hs
    simp only [List.cons_append, List.nil_append, Option.isNone_some, Bool.false_eq_true, false_and,
      ↓reduceIte]
    rw [pieces?]
    · simp only [hof]
      cases pieces? rest <;> rfl
    · intro a b c d r hcons
      exact absurd hcons hu
  | none =>
    simp only [Option.isNone_none, true_and]
    split
    · rename_i hlow
      -- the two digits name the same control character
      have hunit : unitOf? '0' '0' (hexDigit (c.toNat / 16)) (hexDigit (c.toNat % 16)) =
          some c.toNat := by
        have h1 := hexValue?_hexDigit (c.toNat / 16) (by omega)
        have h2 := hexValue?_hexDigit (c.toNat % 16) (by omega)
        have h0 : hexValue? '0' = some 0 := by decide
        simp only [unitOf?, h0, h1, h2, Option.bind_eq_bind, Option.bind_some, Option.pure_def]
        congr 1
        omega
      simp only [List.cons_append, List.nil_append, pieces?, hunit]
      cases pieces? rest <;> rfl
    · rename_i hlow
      have hq : c ≠ '"' := by
        intro h; subst h; simp [shortEscape?] at hs
      have hb : c ≠ '\\' := by
        intro h; subst h; simp [shortEscape?] at hs
      simp only [List.cons_append, List.nil_append]
      rw [pieces?]
      · simp only [hq, hb, hlow, or_self, ↓reduceIte]
        cases pieces? rest <;> rfl
      · intro a b c' d r hc; exact absurd hc hb
      · intro e r hc; exact absurd hc hb

theorem pieces?_escape (t : Text) : pieces? (escape t) = some (t.map pieceOf) := by
  induction t with
  | nil => rfl
  | cons c t ih =>
    have hcons : escape (c :: t) = escapeChar c ++ escape t := rfl
    rw [hcons, pieces?_escapeChar, ih]
    rfl

theorem join?_pieceOf (c : Char) (rest : List Piece) :
    join? (pieceOf c :: rest) = (join? rest).map (c :: ·) := by
  unfold pieceOf
  split
  · rename_i h
    have hhigh : isHigh c.toNat = false := by
      simp only [isHigh, Bool.and_eq_false_iff, decide_eq_false_iff_not]; omega
    have hlow : isLow c.toNat = false := by
      simp only [isLow, Bool.and_eq_false_iff, decide_eq_false_iff_not]; omega
    rw [join?.eq_def]
    simp [hhigh, hlow]
  · rfl

/-- A text that was written as a literal reads back. -/
theorem unescape?_escape (t : Text) : unescape? (escape t) = some t := by
  have hjoin : join? (t.map pieceOf) = some t := by
    induction t with
    | nil => rfl
    | cons c t ih => simp [join?_pieceOf, ih]
  simp [unescape?, pieces?_escape, hjoin]

/-- What was written as a literal is well formed. -/
theorem isWellFormed_escape (t : Text) : isWellFormed (escape t) = true := by
  simp [isWellFormed, pieces?_escape]

end BuildStep.JsonLiteral
