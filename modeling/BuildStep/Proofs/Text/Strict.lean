import BuildStep.Proofs.Text.Lossy
import BuildStep.Text.Decimal

/-!
# Strict reading

The value of a variable or of an option is read strictly.  Bytes are a text only if they are all the
UTF-8 of it, and a text is a number only if it has nothing but digits, after one plus sign at most, and
the number fits into 64 bits.

## Key results

- `Utf8.check_eq_none_iff`: exactly the UTF-8 of texts has no flaw
- `Utf8.decode?_eq_some_iff`: bytes are read as the text that they are the UTF-8 of
- `Decimal.read64?_eq_some_iff`: which texts give which numbers
-/

namespace BuildStep

namespace Utf8

variable {bytes tails : List UInt8} {p : Partial} {n : Nat}

/-! ## Characters without a flaw -/

theorem checkFrom_cons_of_allows {b : UInt8} (h : p.Allows b) (rest : List UInt8) :
    checkFrom n (some p) (b :: rest) = checkFrom (n + 1) (step (some p) b).2 rest := by
  have hb : (decide (p.low ≤ b.toNat) && decide (b.toNat ≤ p.high)) = true := by
    rw [decide_eq_true h.1, decide_eq_true h.2]
    rfl
  exact if_pos hb

theorem allows_of_checkFrom {b : UInt8} {rest : List UInt8}
    (h : checkFrom n (some p) (b :: rest) = none) : p.Allows b := by
  rw [checkFrom] at h
  split at h
  · rename_i hb
    rw [Bool.and_eq_true, decide_eq_true_eq, decide_eq_true_eq] at hb
    exact hb
  · cases h

/-- The bytes that a character owes have no flaw. -/
theorem checkFrom_of_continues (h : p.Continues tails) (hlen : tails.length = p.owed)
    (howed : 0 < p.owed) (rest : List UInt8) :
    checkFrom n (some p) (tails ++ rest) = checkFrom (n + tails.length) none rest := by
  -- induction on the bytes; the character is whole after the last of them, and not before
  induction tails generalizing p n with
  | nil =>
    rw [List.length_nil] at hlen
    omega
  | cons b tails ih =>
    rw [List.length_cons] at hlen
    rw [List.cons_append, checkFrom_cons_of_allows h.1, step_of_allows h.1]
    by_cases hone : p.owed ≤ 1
    · have hnil : tails = [] := List.length_eq_zero_iff.mp (by omega)
      subst hnil
      rw [if_pos hone]
      rfl
    · have howed' : (p.next b).owed = p.owed - 1 := rfl
      rw [if_neg hone, ih h.2 (by omega) (by omega), List.length_cons]
      congr 1
      omega

theorem checkFrom_encodeChar_append (c : Char) (rest : List UInt8) :
    checkFrom n none (String.utf8EncodeChar c ++ rest) =
      checkFrom (n + (String.utf8EncodeChar c).length) none rest := by
  by_cases h : c.val.toNat < 0x80
  · have hb : (UInt8.ofNat c.val.toNat).toNat = c.val.toNat := toNat_ofNat_of_lt (by omega)
    rw [String.utf8EncodeChar, if_pos (by omega), List.singleton_append, checkFrom,
      start_of_one (by omega)]
    rfl
  · obtain ⟨b, p, tails, henc, hstart, hcont, hlen, -⟩ := exists_continues_of_encodeChar h
    rw [henc, List.cons_append, checkFrom, hstart]
    show checkFrom (n + 1) (some p) (tails ++ rest) = _
    rw [checkFrom_of_continues hcont hlen (owed_pos_of_opens hstart), List.length_cons]
    congr 1
    omega

/-- Inside a character, bytes without a flaw begin with those that the character owes. -/
theorem exists_continues_of_checkFrom (h : checkFrom n (some p) bytes = none)
    (howed : 0 < p.owed) :
    ∃ tails, tails <+: bytes ∧ p.Continues tails ∧ tails.length = p.owed := by
  induction bytes generalizing p n with
  | nil => cases h
  | cons b bytes ih =>
    have hb := allows_of_checkFrom h
    rw [checkFrom_cons_of_allows hb, step_of_allows hb] at h
    by_cases hone : p.owed ≤ 1
    · refine ⟨[b], ⟨bytes, rfl⟩, Partial.continues_singleton.mpr hb, ?_⟩
      show 1 = p.owed
      omega
    · rw [if_neg hone] at h
      have howed' : (p.next b).owed = p.owed - 1 := rfl
      obtain ⟨tails, hprefix, hcont, hlen⟩ := ih h (by omega)
      refine ⟨b :: tails, List.cons_prefix_cons.mpr ⟨rfl, hprefix⟩, ⟨hb, hcont⟩, ?_⟩
      rw [List.length_cons]
      omega

/-- Between characters, bytes without a flaw begin with a character. -/
theorem exists_encodeChar_of_checkFrom (h : checkFrom n none bytes = none) (hne : bytes ≠ []) :
    ∃ c, String.utf8EncodeChar c <+: bytes := by
  obtain ⟨b, rest, rfl⟩ := List.exists_cons_of_ne_nil hne
  rw [checkFrom] at h
  cases hstart : start b with
  | refused =>
    rw [hstart] at h
    cases h
  | whole c =>
    have hb : b.toNat < 0x80 := lt_of_start_eq_whole hstart
    refine ⟨Char.ofNat b.toNat, rest, ?_⟩
    rw [encodeChar_of_one hb]
    rfl
  | opens p =>
    rw [hstart] at h
    obtain ⟨tails, ⟨rest', rfl⟩, hcont, hlen⟩ :=
      exists_continues_of_checkFrom h (owed_pos_of_opens hstart)
    refine ⟨Char.ofNat (p.after tails).code, rest', ?_⟩
    rw [encodeChar_of_continues hstart hcont hlen]
    rfl

/-! ## Texts without a flaw -/

theorem checkFrom_encode (t : Text) : checkFrom n none (encode t) = none := by
  induction t generalizing n with
  | nil => rfl
  | cons c t ih => rw [encode_cons, checkFrom_encodeChar_append, ih]

theorem exists_encode_of_checkFrom (h : checkFrom n none bytes = none) :
    ∃ t, bytes = encode t := by
  -- a flaw would leave no character for the bytes to begin with
  induction bytes using pieces_induction generalizing n with
  | nil => exact ⟨[], rfl⟩
  | char c rest ih =>
    rw [checkFrom_encodeChar_append] at h
    obtain ⟨t, rfl⟩ := ih h
    exact ⟨c :: t, (encode_cons c t).symm⟩
  | flaw part rest hflaw _ =>
    have hne : part ++ rest ≠ [] := by
      apply List.append_ne_nil_of_left_ne_nil
      exact List.ne_nil_of_length_pos hflaw.length_pos
    obtain ⟨c, hc⟩ := exists_encodeChar_of_checkFrom h hne
    exact absurd hc (hflaw.no_character c)

/-- The bytes without a flaw are those of texts. -/
theorem check_eq_none_iff (bytes : List UInt8) : check bytes = none ↔ ∃ t, bytes = encode t := by
  constructor
  · exact exists_encode_of_checkFrom
  · rintro ⟨t, rfl⟩
    exact checkFrom_encode t

theorem decode?_eq_some_iff {t : Text} : decode? bytes = some t ↔ bytes = encode t := by
  constructor
  · intro h
    rw [decode?] at h
    split at h
    · rename_i hcheck
      obtain ⟨t', rfl⟩ := (check_eq_none_iff bytes).mp hcheck
      rw [decode_encode] at h
      cases h
      rfl
    · cases h
  · rintro rfl
    rw [decode?, (check_eq_none_iff _).mpr ⟨t, rfl⟩, decode_encode]

end Utf8

/-! ## Numbers -/

namespace Decimal

/-- How a 64-bit number may be given: by digits, which one plus sign may come before. -/
def Gives64 (t : Text) (n : Nat) : Prop :=
  ∃ digits, (t = digits ∨ t = '+' :: digits) ∧ digits ≠ [] ∧
    (∀ c ∈ digits, c.isDigit = true) ∧ Nat.ofDigitChars 10 digits 0 = n ∧ n ≤ max64

theorem read?_eq_some_iff {t : Text} {n : Nat} :
    read? t = some n ↔
      t ≠ [] ∧ (∀ c ∈ t, c.isDigit = true) ∧ Nat.ofDigitChars 10 t 0 = n := by
  rw [read?, Option.ite_none_right_eq_some]
  simp only [Bool.and_eq_true, Bool.not_eq_true', List.isEmpty_eq_false_iff, List.all_eq_true,
    Option.some.injEq, and_assoc]

theorem readSigned?_eq_some_iff {t : Text} {n : Nat} :
    readSigned? t = some n ↔ ∃ digits, (t = digits ∨ t = '+' :: digits) ∧ read? digits = some n := by
  unfold readSigned?
  split
  · rename_i t
    constructor
    · exact fun h => ⟨t, .inr rfl, h⟩
    · rintro ⟨digits, rfl | hcons, hread⟩
      · -- a plus sign is no digit
        have hplus := (read?_eq_some_iff.mp hread).2.1 '+' List.mem_cons_self
        exact absurd hplus (by decide)
      · cases hcons
        exact hread
  · rename_i hplain
    constructor
    · exact fun h => ⟨_, .inl rfl, h⟩
    · rintro ⟨digits, rfl | rfl, hread⟩
      · exact hread
      · exact absurd rfl (hplain digits)

theorem read64?_eq_some_iff {t : Text} {n : Nat} : read64? t = some n ↔ Gives64 t n := by
  have hlimit (m : Nat) : atMost? max64 m = some n ↔ m = n ∧ n ≤ max64 := by
    rw [atMost?, Option.ite_none_right_eq_some, Option.some.injEq]
    constructor
    · rintro ⟨hle, rfl⟩
      exact ⟨rfl, hle⟩
    · rintro ⟨rfl, hle⟩
      exact ⟨hle, rfl⟩
  simp only [read64?, Option.bind_eq_some_iff, readSigned?_eq_some_iff, hlimit, Gives64,
    read?_eq_some_iff]
  constructor
  · rintro ⟨m, ⟨digits, hform, hne, hdigits, hvalue⟩, rfl, hle⟩
    exact ⟨digits, hform, hne, hdigits, hvalue, hle⟩
  · rintro ⟨digits, hform, hne, hdigits, hvalue, hle⟩
    exact ⟨n, ⟨digits, hform, hne, hdigits, hvalue⟩, rfl, hle⟩

end Decimal

end BuildStep
