import BuildStep.Text.Basic

/-! # Decimal numerals

`Decimal.digits` writes a natural number, `Decimal.read?` reads one; leading zeros are allowed and
signs are not.  `Decimal.readSigned?` also takes one leading plus sign.

* `read?_digits`: what was written reads back.
* `digits_eq_cons`: only zero is written with a zero in front. -/

namespace BuildStep.Decimal

/-- The shortest decimal numeral of `n`. -/
def digits (n : Nat) : Text :=
  Nat.toDigits 10 n

/-- The value of a non-empty text of ASCII digits. -/
def read? (t : Text) : Option Nat :=
  if !t.isEmpty && t.all Char.isDigit then some (Nat.ofDigitChars 10 t 0) else none

/-- The value of a non-empty text of ASCII digits that may follow one plus sign. -/
def readSigned? : Text → Option Nat
  | '+' :: t => read? t
  | t => read? t

/-- The number, unless it lies above the limit. -/
def atMost? (limit : Nat) (n : Nat) : Option Nat :=
  if n ≤ limit then some n else none

/-- The greatest 64-bit number. -/
def max64 : Nat := 18446744073709551615

/-- A 64-bit number as settings and options give it: one plus sign may come first. -/
def read64? (t : Text) : Option Nat :=
  (readSigned? t).bind (atMost? max64)

theorem ne_of_isDigit {c x : Char} (h : c.isDigit = true) (hx : x.isDigit = false) : c ≠ x := by
  intro heq
  rw [heq, hx] at h
  cases h

theorem isDigit_of_mem_digits {n : Nat} {c : Char} (h : c ∈ digits n) : c.isDigit = true :=
  Nat.isDigit_of_mem_toDigits (by decide) (by decide) h

theorem digits_ne_nil (n : Nat) : digits n ≠ [] := by
  simp [digits]

/-- A numeral has no leading zero. -/
theorem digits_eq_cons {n : Nat} (h : 0 < n) : ∃ c t, digits n = c :: t ∧ c ≠ '0' := by
  induction n using Nat.strongRecOn with
  | ind n ih =>
    by_cases hone : n < 10
    · -- the nine numerals of one digit
      have hall : ∀ m < 10, 0 < m → Nat.digitChar m ≠ '0' := by decide
      exact ⟨_, [], Nat.toDigits_of_lt_base hone, hall n hone h⟩
    · have hle : 10 ≤ n := by omega
      obtain ⟨c, t, hdigits, hne⟩ := ih (n / 10) (by omega) (by omega)
      have hcons : digits n = digits (n / 10) ++ [Nat.digitChar (n % 10)] :=
        Nat.toDigits_of_base_le (by decide) hle
      exact ⟨c, t ++ [Nat.digitChar (n % 10)], by rw [hcons, hdigits]; rfl, hne⟩

theorem read?_digits (n : Nat) : read? (digits n) = some n := by
  have hne : (digits n).isEmpty = false := by
    simp [digits_ne_nil]
  have hall : (digits n).all Char.isDigit = true := by
    rw [List.all_eq_true]
    exact fun c hc => isDigit_of_mem_digits hc
  rw [read?, hne, hall]
  simp [digits, Nat.ofDigitChars_toDigits]

end BuildStep.Decimal
