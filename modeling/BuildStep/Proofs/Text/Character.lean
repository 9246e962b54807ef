import BuildStep.Text.Utf8
import Mathlib.Data.List.Basic
import Mathlib.Data.List.Induction

/-!
# One character in UTF-8

The bytes of a character are a byte below 0x80, or a byte that opens a longer form and as many bytes
as that form owes.  Here the machine that reads UTF-8 is matched with the encoding of characters,
in both directions: it reads the bytes of a character as that character, and whatever it reads as a
character without a flaw are the bytes of it.

## Key results

- `encodeChar_of_continues`: bytes that an open form can take to its end encode a character
- `exists_continues_of_encodeChar`: a character of more than one byte is such a form
- `run_encodeChar`: the machine reads the bytes of a character as that character
- `begins_iff`: the machine is inside a character exactly on the beginnings of characters
-/

namespace BuildStep.Utf8

/-! ## Places inside a character -/

namespace Partial

variable {p : Partial} {b : UInt8} {bs : List UInt8}

/-- The byte may come next. -/
def Allows (p : Partial) (b : UInt8) : Prop :=
  p.low ≤ b.toNat ∧ b.toNat ≤ p.high

/-- The place one byte further on. -/
def next (p : Partial) (b : UInt8) : Partial :=
  ⟨p.owed - 1, 0x80, 0xBF, p.seen + 1, p.code * 64 + (b.toNat - 0x80)⟩

/-- The place some bytes further on. -/
def after (p : Partial) (bs : List UInt8) : Partial :=
  bs.foldl next p

/-- The bytes may come next, one after the other. -/
def Continues : Partial → List UInt8 → Prop
  | _, [] => True
  | p, b :: bs => p.Allows b ∧ (p.next b).Continues bs

theorem after_append (p : Partial) (bs bs' : List UInt8) :
    p.after (bs ++ bs') = (p.after bs).after bs' :=
  List.foldl_append

theorem owed_after (p : Partial) (bs : List UInt8) :
    (p.after bs).owed = p.owed - bs.length := by
  induction bs generalizing p with
  | nil => rfl
  | cons b bs ih =>
    show ((p.next b).after bs).owed = _
    rw [ih, List.length_cons]
    show p.owed - 1 - bs.length = p.owed - (bs.length + 1)
    omega

theorem continues_append {bs' : List UInt8} :
    p.Continues (bs ++ bs') ↔ p.Continues bs ∧ (p.after bs).Continues bs' := by
  induction bs generalizing p with
  | nil => exact (and_iff_right trivial).symm
  | cons b bs ih =>
    show (p.Allows b ∧ (p.next b).Continues (bs ++ bs')) ↔ _
    rw [ih, ← and_assoc]
    rfl

theorem continues_singleton : p.Continues [b] ↔ p.Allows b :=
  and_iff_left trivial

end Partial

/-- A byte that a place allows completes the character or is kept as one more of its bytes. -/
theorem step_of_allows {p : Partial} {b : UInt8} (h : p.Allows b) :
    step (some p) b =
      if p.owed ≤ 1 then ([Char.ofNat (p.next b).code], none) else ([], some (p.next b)) := by
  have hb : (decide (p.low ≤ b.toNat) && decide (b.toNat ≤ p.high)) = true := by
    rw [decide_eq_true h.1, decide_eq_true h.2]
    rfl
  exact if_pos hb

/-- A byte that a place does not allow gives the character up and is read anew. -/
theorem step_of_not_allows {p : Partial} {b : UInt8} (h : ¬p.Allows b) :
    step (some p) b = (replacement :: (begin b).1, (begin b).2) := by
  have hb : ¬(decide (p.low ≤ b.toNat) && decide (b.toNat ≤ p.high)) = true := by
    rw [Bool.and_eq_true, decide_eq_true_eq, decide_eq_true_eq]
    exact h
  exact if_neg hb

/-- Too few bytes for the character are kept. -/
theorem run_of_continues {p : Partial} {bs : List UInt8} (h : p.Continues bs)
    (hlen : bs.length < p.owed) : run (some p) bs = ([], some (p.after bs)) := by
  induction bs generalizing p with
  | nil => rfl
  | cons b bs ih =>
    rw [List.length_cons] at hlen
    have howed : bs.length < (p.next b).owed := by
      show bs.length < p.owed - 1
      omega
    rw [run_cons, step_of_allows h.1, if_neg (by omega), ih h.2 howed]
    rfl

/-- As many bytes as the character owes complete it. -/
theorem run_of_continues_all {p : Partial} {bs : List UInt8} (h : p.Continues bs)
    (hlen : bs.length = p.owed) (howed : 0 < p.owed) :
    run (some p) bs = ([Char.ofNat (p.after bs).code], none) := by
  obtain ⟨front, b, rfl⟩ := (List.eq_nil_or_concat' bs).resolve_left
    (fun hnil => by rw [hnil, List.length_nil] at hlen; omega)
  rw [List.length_append, List.length_singleton] at hlen
  -- all bytes but the last are kept, and then one is owed
  obtain ⟨hfront, hb⟩ := Partial.continues_append.mp h
  have hlast : (p.after front).owed ≤ 1 := by
    rw [Partial.owed_after]
    omega
  rw [run_append, run_of_continues hfront (by omega), run_cons,
    step_of_allows (Partial.continues_singleton.mp hb), if_pos hlast, Partial.after_append]
  rfl

/-! ## Bytes that open a longer form -/

theorem lowAfter_eq (b : UInt8) :
    lowAfter b = if b.toNat = 0xE0 then 0xA0 else if b.toNat = 0xF0 then 0x90 else 0x80 := by
  simp only [lowAfter, ← UInt8.toNat_inj]
  rfl

theorem highAfter_eq (b : UInt8) :
    highAfter b = if b.toNat = 0xED then 0x9F else if b.toNat = 0xF4 then 0x8F else 0xBF := by
  simp only [highAfter, ← UInt8.toNat_inj]
  rfl

theorem width?_eq (b : UInt8) :
    width? b =
      if 0xC2 ≤ b.toNat ∧ b.toNat ≤ 0xDF then some 2
      else if 0xE0 ≤ b.toNat ∧ b.toNat ≤ 0xEF then some 3
      else if 0xF0 ≤ b.toNat ∧ b.toNat ≤ 0xF4 then some 4
      else none := by
  simp only [width?, Bool.and_eq_true, decide_eq_true_eq, UInt8.le_iff_toNat_le]
  rfl

theorem isContinuation_iff (b : UInt8) :
    isContinuation b = true ↔ 0x80 ≤ b.toNat ∧ b.toNat ≤ 0xBF := by
  rw [isContinuation, Bool.and_eq_true, decide_eq_true_eq, decide_eq_true_eq,
    UInt8.le_iff_toNat_le, UInt8.le_iff_toNat_le]
  rfl

section Start

variable {b : UInt8}

theorem start_of_one (h : b.toNat < 0x80) : start b = .whole (Char.ofNat b.toNat) := by
  rw [start, if_pos (UInt8.lt_iff_toNat_lt.mpr h)]

theorem start_of_long (h : ¬b.toNat < 0x80) :
    start b =
      match width? b with
      | some 2 => .opens ⟨1, lowAfter b, highAfter b, 1, b.toNat - 0xC0⟩
      | some 3 => .opens ⟨2, lowAfter b, highAfter b, 1, b.toNat - 0xE0⟩
      | some _ => .opens ⟨3, lowAfter b, highAfter b, 1, b.toNat - 0xF0⟩
      | none => .refused := by
  have hb : ¬b < 0x80 := fun hlt => h (UInt8.lt_iff_toNat_lt.mp hlt)
  exact if_neg hb

theorem lt_of_start_eq_whole {c : Char} (h : start b = .whole c) : b.toNat < 0x80 := by
  apply Decidable.of_not_not
  intro hb
  rw [start_of_long hb] at h
  split at h <;> cases h

theorem start_of_two (h : 0xC2 ≤ b.toNat ∧ b.toNat ≤ 0xDF) :
    start b = .opens ⟨1, lowAfter b, highAfter b, 1, b.toNat - 0xC0⟩ := by
  have hw : width? b = some 2 := by rw [width?_eq, if_pos h]
  simp only [start_of_long (show ¬b.toNat < 0x80 by omega), hw]

theorem start_of_three (h : 0xE0 ≤ b.toNat ∧ b.toNat ≤ 0xEF) :
    start b = .opens ⟨2, lowAfter b, highAfter b, 1, b.toNat - 0xE0⟩ := by
  have hw : width? b = some 3 := by rw [width?_eq, if_neg (by omega), if_pos h]
  simp only [start_of_long (show ¬b.toNat < 0x80 by omega), hw]

theorem start_of_four (h : 0xF0 ≤ b.toNat ∧ b.toNat ≤ 0xF4) :
    start b = .opens ⟨3, lowAfter b, highAfter b, 1, b.toNat - 0xF0⟩ := by
  have hw : width? b = some 4 := by
    rw [width?_eq, if_neg (by omega), if_neg (by omega), if_pos h]
  simp only [start_of_long (show ¬b.toNat < 0x80 by omega), hw]

/-- The kinds of bytes that open a longer form. -/
theorem start_eq_opens {p : Partial} (h : start b = .opens p) :
    (0xC2 ≤ b.toNat ∧ b.toNat ≤ 0xDF) ∧
        p = ⟨1, lowAfter b, highAfter b, 1, b.toNat - 0xC0⟩ ∨
      (0xE0 ≤ b.toNat ∧ b.toNat ≤ 0xEF) ∧
        p = ⟨2, lowAfter b, highAfter b, 1, b.toNat - 0xE0⟩ ∨
      (0xF0 ≤ b.toNat ∧ b.toNat ≤ 0xF4) ∧
        p = ⟨3, lowAfter b, highAfter b, 1, b.toNat - 0xF0⟩ := by
  by_cases h1 : b.toNat < 0x80
  · rw [start_of_one h1] at h
    cases h
  by_cases h2 : 0xC2 ≤ b.toNat ∧ b.toNat ≤ 0xDF
  · rw [start_of_two h2] at h
    cases h
    exact .inl ⟨h2, rfl⟩
  by_cases h3 : 0xE0 ≤ b.toNat ∧ b.toNat ≤ 0xEF
  · rw [start_of_three h3] at h
    cases h
    exact .inr (.inl ⟨h3, rfl⟩)
  by_cases h4 : 0xF0 ≤ b.toNat ∧ b.toNat ≤ 0xF4
  · rw [start_of_four h4] at h
    cases h
    exact .inr (.inr ⟨h4, rfl⟩)
  · have hw : width? b = none := by rw [width?_eq, if_neg h2, if_neg h3, if_neg h4]
    simp only [start_of_long h1, hw] at h
    cases h

/-- The width of a longer form tells how many bytes it owes after the first. -/
theorem width?_of_opens {p : Partial} (h : start b = .opens p) : width? b = some (p.owed + 1) := by
  rw [width?_eq]
  obtain ⟨hb, rfl⟩ | ⟨hb, rfl⟩ | ⟨hb, rfl⟩ := start_eq_opens h
  · rw [if_pos hb]
  · rw [if_neg (by omega), if_pos hb]
  · rw [if_neg (by omega), if_neg (by omega), if_pos hb]

/-- A byte that has a width opens a form of as many bytes. -/
theorem exists_opens_of_width? {width : Nat} (h : width? b = some width) :
    ∃ p, start b = .opens p ∧ p.owed + 1 = width ∧ p.low = lowAfter b ∧ p.high = highAfter b := by
  rw [width?_eq] at h
  split at h
  · rename_i h2
    cases h
    exact ⟨_, start_of_two h2, rfl, rfl, rfl⟩
  split at h
  · rename_i h3
    cases h
    exact ⟨_, start_of_three h3, rfl, rfl, rfl⟩
  split at h
  · rename_i h4
    cases h
    exact ⟨_, start_of_four h4, rfl, rfl, rfl⟩
  · cases h

end Start

/-- What may follow the first byte of a longer form. -/
theorem mem_rangeAfter_iff (b : UInt8) (n : Nat) :
    lowAfter b ≤ n ∧ n ≤ highAfter b ↔
      (0x80 ≤ n ∧ n ≤ 0xBF) ∧ (b.toNat = 0xE0 → 0xA0 ≤ n) ∧ (b.toNat = 0xED → n ≤ 0x9F) ∧
        (b.toNat = 0xF0 → 0x90 ≤ n) ∧ (b.toNat = 0xF4 → n ≤ 0x8F) := by
  rw [lowAfter_eq, highAfter_eq]
  constructor
  · intro h
    split at h <;> split at h <;> (try split at h) <;> (try split at h) <;> omega
  · intro h
    split <;> split <;> (try split) <;> (try split) <;> omega

/-! ## Forms and characters -/

theorem toNat_val_ofNat {n : Nat} (h : n.isValidChar) : (Char.ofNat n).val.toNat = n := by
  rw [Char.ofNat, dif_pos h]
  rfl

theorem ofNat_eq_of_eq_toNat {n : Nat} {b : UInt8} (h : n = b.toNat) : UInt8.ofNat n = b := by
  rw [h, UInt8.ofNat_toNat]

theorem toNat_ofNat_of_lt {n : Nat} (h : n < 256) : (UInt8.ofNat n).toNat = n :=
  Nat.mod_eq_of_lt h

theorem encodeChar_of_one {b : UInt8} (h : b.toNat < 0x80) :
    String.utf8EncodeChar (Char.ofNat b.toNat) = [b] := by
  rw [String.utf8EncodeChar, toNat_val_ofNat (.inl (by omega)), if_pos (by omega),
    UInt8.ofNat_toNat]

/-- Bytes that an open form can take to its end encode a character. -/
theorem encodeChar_of_continues {b : UInt8} {p : Partial} {tails : List UInt8}
    (hstart : start b = .opens p) (hcont : p.Continues tails) (hlen : tails.length = p.owed) :
    String.utf8EncodeChar (Char.ofNat (p.after tails).code) = b :: tails := by
  obtain ⟨hb, rfl⟩ | ⟨hb, rfl⟩ | ⟨hb, rfl⟩ := start_eq_opens hstart
  · -- two bytes: the value is below 0x800, and 0xC2 keeps it above 0x7F
    obtain ⟨x, rfl⟩ := List.length_eq_one_iff.mp hlen
    have hx := (mem_rangeAfter_iff b x.toNat).mp hcont.1
    simp only [Partial.after, Partial.next, List.foldl_cons, List.foldl_nil]
    rw [String.utf8EncodeChar, toNat_val_ofNat (.inl (by omega)), if_neg (by omega),
      if_pos (by omega), ofNat_eq_of_eq_toNat (show _ = b.toNat by omega),
      ofNat_eq_of_eq_toNat (show _ = x.toNat by omega)]
  · -- three bytes: the range after 0xE0 keeps out shorter forms, that after 0xED surrogates
    obtain ⟨x, y, rfl⟩ := List.length_eq_two.mp hlen
    have hx := (mem_rangeAfter_iff b x.toNat).mp hcont.1
    have hy : 0x80 ≤ y.toNat ∧ y.toNat ≤ 0xBF := hcont.2.1
    have hvalid : Nat.isValidChar
        (((b.toNat - 0xE0) * 64 + (x.toNat - 0x80)) * 64 + (y.toNat - 0x80)) := by
      simp only [Nat.isValidChar]
      omega
    simp only [Partial.after, Partial.next, List.foldl_cons, List.foldl_nil]
    rw [String.utf8EncodeChar, toNat_val_ofNat hvalid, if_neg (by omega), if_neg (by omega),
      if_pos (by omega), ofNat_eq_of_eq_toNat (show _ = b.toNat by omega),
      ofNat_eq_of_eq_toNat (show _ = x.toNat by omega),
      ofNat_eq_of_eq_toNat (show _ = y.toNat by omega)]
  · -- four bytes: the range after 0xF0 keeps out shorter forms, that after 0xF4 values too great
    obtain ⟨x, y, z, rfl⟩ := List.length_eq_three.mp hlen
    have hx := (mem_rangeAfter_iff b x.toNat).mp hcont.1
    have hy : 0x80 ≤ y.toNat ∧ y.toNat ≤ 0xBF := hcont.2.1
    have hz : 0x80 ≤ z.toNat ∧ z.toNat ≤ 0xBF := hcont.2.2.1
    have hvalid : Nat.isValidChar
        ((((b.toNat - 0xF0) * 64 + (x.toNat - 0x80)) * 64 + (y.toNat - 0x80)) * 64 +
          (z.toNat - 0x80)) := by
      simp only [Nat.isValidChar]
      omega
    simp only [Partial.after, Partial.next, List.foldl_cons, List.foldl_nil]
    rw [String.utf8EncodeChar, toNat_val_ofNat hvalid, if_neg (by omega), if_neg (by omega),
      if_neg (by omega), ofNat_eq_of_eq_toNat (show _ = b.toNat by omega),
      ofNat_eq_of_eq_toNat (show _ = x.toNat by omega),
      ofNat_eq_of_eq_toNat (show _ = y.toNat by omega),
      ofNat_eq_of_eq_toNat (show _ = z.toNat by omega)]

/-- A character of more than one byte is an open form that was taken to its end. -/
theorem exists_continues_of_encodeChar {c : Char} (h : ¬c.val.toNat < 0x80) :
    ∃ b p tails, String.utf8EncodeChar c = b :: tails ∧ start b = .opens p ∧
      p.Continues tails ∧ tails.length = p.owed ∧ (p.after tails).code = c.val.toNat := by
  have hvalid : c.val.toNat.isValidChar := c.valid
  -- the bytes are digits of the value in base 64, so all that is left is arithmetic on it
  generalize hv : c.val.toNat = v at h hvalid
  simp only [Nat.isValidChar] at hvalid
  by_cases h2 : v ≤ 0x7FF
  · obtain ⟨b, x, henc, hb, hx⟩ : ∃ b x, String.utf8EncodeChar c = [b, x] ∧
        b.toNat = v / 64 + 0xC0 ∧ x.toNat = v % 64 + 0x80 := by
      refine ⟨_, _, by rw [String.utf8EncodeChar, hv, if_neg (by omega), if_pos h2], ?_, ?_⟩
      all_goals rw [toNat_ofNat_of_lt (by omega)]
      all_goals omega
    refine ⟨b, _, [x], henc, start_of_two (by omega),
      ⟨(mem_rangeAfter_iff b x.toNat).mpr (by omega), trivial⟩, rfl, ?_⟩
    simp only [Partial.after, Partial.next, List.foldl_cons, List.foldl_nil]
    omega
  by_cases h3 : v ≤ 0xFFFF
  · obtain ⟨b, x, y, henc, hb, hx, hy⟩ : ∃ b x y, String.utf8EncodeChar c = [b, x, y] ∧
        b.toNat = v / 4096 + 0xE0 ∧ x.toNat = v / 64 % 64 + 0x80 ∧ y.toNat = v % 64 + 0x80 := by
      refine ⟨_, _, _,
        by rw [String.utf8EncodeChar, hv, if_neg (by omega), if_neg h2, if_pos h3], ?_, ?_, ?_⟩
      all_goals rw [toNat_ofNat_of_lt (by omega)]
      all_goals omega
    have hcont : 0x80 ≤ y.toNat ∧ y.toNat ≤ 0xBF := by omega
    refine ⟨b, _, [x, y], henc, start_of_three (by omega),
      ⟨(mem_rangeAfter_iff b x.toNat).mpr (by omega), hcont, trivial⟩, rfl, ?_⟩
    simp only [Partial.after, Partial.next, List.foldl_cons, List.foldl_nil]
    omega
  · obtain ⟨b, x, y, z, henc, hb, hx, hy, hz⟩ : ∃ b x y z,
        String.utf8EncodeChar c = [b, x, y, z] ∧ b.toNat = v / 262144 + 0xF0 ∧
          x.toNat = v / 4096 % 64 + 0x80 ∧ y.toNat = v / 64 % 64 + 0x80 ∧
          z.toNat = v % 64 + 0x80 := by
      refine ⟨_, _, _, _,
        by rw [String.utf8EncodeChar, hv, if_neg (by omega), if_neg h2, if_neg h3], ?_, ?_, ?_, ?_⟩
      all_goals rw [toNat_ofNat_of_lt (by omega)]
      all_goals omega
    have hcont : (0x80 ≤ y.toNat ∧ y.toNat ≤ 0xBF) ∧ 0x80 ≤ z.toNat ∧ z.toNat ≤ 0xBF := by omega
    refine ⟨b, _, [x, y, z], henc, start_of_four (by omega),
      ⟨(mem_rangeAfter_iff b x.toNat).mpr (by omega), hcont.1, hcont.2, trivial⟩, rfl, ?_⟩
    simp only [Partial.after, Partial.next, List.foldl_cons, List.foldl_nil]
    omega

/-! ## Reading a character -/

theorem run_of_opens {b : UInt8} {p : Partial} (h : start b = .opens p) (bs : List UInt8) :
    run none (b :: bs) = run (some p) bs := by
  have hstep : step none b = ([], some p) := by
    show begin b = _
    rw [begin, h]
  rw [run_cons, hstep]
  rfl

theorem owed_pos_of_opens {b : UInt8} {p : Partial} (h : start b = .opens p) : 0 < p.owed := by
  obtain ⟨-, rfl⟩ | ⟨-, rfl⟩ | ⟨-, rfl⟩ := start_eq_opens h
  all_goals exact Nat.succ_pos _

/-- The machine reads the bytes of a character as that character. -/
theorem run_encodeChar (c : Char) : run none (String.utf8EncodeChar c) = ([c], none) := by
  by_cases h : c.val.toNat < 0x80
  · have hb : (UInt8.ofNat c.val.toNat).toNat = c.val.toNat := toNat_ofNat_of_lt (by omega)
    have hstep : step none (UInt8.ofNat c.val.toNat) = ([c], none) := by
      show begin _ = _
      rw [begin, start_of_one (by omega), hb, show c.val.toNat = c.toNat from rfl, Char.ofNat_toNat]
    rw [String.utf8EncodeChar, if_pos (by omega), run_cons, hstep]
    rfl
  · obtain ⟨b, p, tails, henc, hstart, hcont, hlen, hcode⟩ := exists_continues_of_encodeChar h
    rw [henc, run_of_opens hstart, run_of_continues_all hcont hlen (owed_pos_of_opens hstart),
      hcode, show c.val.toNat = c.toNat from rfl, Char.ofNat_toNat]

/-! ## The beginning of a character -/

/-- Bytes that take the machine from between characters into one, at place `q`. -/
def Opened (part : List UInt8) (q : Partial) : Prop :=
  ∃ b p conts, part = b :: conts ∧ start b = .opens p ∧ p.Continues conts ∧
    conts.length < p.owed ∧ q = p.after conts

/-- Bytes that begin a character and are not all of it. -/
def Begins (part : List UInt8) : Prop :=
  part ≠ [] ∧ ∃ c, part <+: String.utf8EncodeChar c ∧ part ≠ String.utf8EncodeChar c

/-- Bytes that take a place to the end of its character. -/
def Partial.completion (p : Partial) : List UInt8 :=
  UInt8.ofNat p.low :: List.replicate (p.owed - 1) 0x80

section Opened

variable {part : List UInt8} {q : Partial} {b : UInt8}

theorem Opened.run (h : Opened part q) : run none part = ([], some q) := by
  obtain ⟨b, p, conts, rfl, hstart, hcont, hlen, rfl⟩ := h
  rw [run_of_opens hstart, run_of_continues hcont hlen]

theorem opened_singleton (h : start b = .opens q) : Opened [b] q :=
  ⟨b, q, [], rfl, h, trivial, owed_pos_of_opens h, rfl⟩

theorem Opened.owed_pos (h : Opened part q) : 0 < q.owed := by
  obtain ⟨b, p, conts, -, -, -, hlen, rfl⟩ := h
  rw [Partial.owed_after]
  omega

/-- One more byte that the place allows stays inside the character if that owes more. -/
theorem Opened.concat (h : Opened part q) (hb : q.Allows b) (howed : 1 < q.owed) :
    Opened (part ++ [b]) (q.next b) := by
  obtain ⟨b', p, conts, rfl, hstart, hcont, hlen, rfl⟩ := h
  rw [Partial.owed_after] at howed
  refine ⟨b', p, conts ++ [b], rfl, hstart, ?_, ?_, ?_⟩
  · exact Partial.continues_append.mpr ⟨hcont, Partial.continues_singleton.mpr hb⟩
  · rw [List.length_append, List.length_singleton]
    omega
  · rw [Partial.after_append]
    rfl

/-- Bytes that the place allows, as many as the character owes, complete one. -/
theorem Opened.exists_encodeChar {bs : List UInt8} (h : Opened part q) (hbs : q.Continues bs)
    (hlen : bs.length = q.owed) : ∃ c, String.utf8EncodeChar c = part ++ bs := by
  obtain ⟨b', p, conts, rfl, hstart, hcont, hlt, rfl⟩ := h
  rw [Partial.owed_after] at hlen
  have hall : (conts ++ bs).length = p.owed := by
    rw [List.length_append]
    omega
  exact ⟨_, encodeChar_of_continues hstart (Partial.continues_append.mpr ⟨hcont, hbs⟩) hall⟩

/-- What a place allows next is some continuation bytes, and not none of them. -/
theorem Opened.range (h : Opened part q) : 0x80 ≤ q.low ∧ q.low ≤ q.high ∧ q.high ≤ 0xBF := by
  obtain ⟨b, p, conts, -, hstart, -, -, rfl⟩ := h
  obtain rfl | ⟨front, x, rfl⟩ := List.eq_nil_or_concat' conts
  · -- only the place behind the first byte has a range of its own
    have hrange : 0x80 ≤ lowAfter b ∧ lowAfter b ≤ highAfter b ∧ highAfter b ≤ 0xBF := by
      rw [lowAfter_eq, highAfter_eq]
      split <;> split <;> (try split) <;> (try split) <;> omega
    obtain ⟨-, rfl⟩ | ⟨-, rfl⟩ | ⟨-, rfl⟩ := start_eq_opens hstart
    all_goals exact hrange
  · rw [Partial.after_append]
    show 0x80 ≤ 0x80 ∧ 0x80 ≤ 0xBF ∧ 0xBF ≤ 0xBF
    decide

/-- Behind the second byte of a character any continuation bytes may follow. -/
theorem continues_of_forall {p : Partial} {bs : List UInt8} (hlow : p.low = 0x80)
    (hhigh : p.high = 0xBF) (h : ∀ x ∈ bs, isContinuation x = true) : p.Continues bs := by
  induction bs generalizing p with
  | nil => trivial
  | cons x bs ih =>
    have hx := (isContinuation_iff x).mp (h x List.mem_cons_self)
    refine ⟨?_, ih rfl rfl fun y hy => h y (List.mem_cons_of_mem x hy)⟩
    rw [Partial.Allows, hlow, hhigh]
    exact hx

theorem Opened.continues_completion (h : Opened part q) : q.Continues q.completion := by
  have hrange := h.range
  refine ⟨?_, continues_of_forall rfl rfl fun x hx => by rw [List.eq_of_mem_replicate hx]; decide⟩
  rw [Partial.Allows, toNat_ofNat_of_lt (by omega)]
  exact ⟨Nat.le_refl _, hrange.2.1⟩

theorem Opened.length_completion (h : Opened part q) : q.completion.length = q.owed := by
  have hpos := h.owed_pos
  rw [Partial.completion, List.length_cons, List.length_replicate]
  omega

theorem Opened.begins (h : Opened part q) : Begins part := by
  -- the character is that of the completion, which is not empty
  obtain ⟨c, hc⟩ := h.exists_encodeChar h.continues_completion h.length_completion
  have hne : part ≠ [] := by
    obtain ⟨b, _, _, rfl, -⟩ := h
    exact List.cons_ne_nil _ _
  refine ⟨hne, c, ⟨_, hc.symm⟩, fun heq => ?_⟩
  rw [← heq, List.self_eq_append_right] at hc
  exact List.cons_ne_nil _ _ hc

end Opened

/-- The machine is inside a character exactly after the beginnings of characters. -/
theorem begins_iff (part : List UInt8) : Begins part ↔ ∃ q, Opened part q := by
  constructor
  · rintro ⟨hne, c, ⟨more, hmore⟩, hlt⟩
    obtain ⟨b, conts, rfl⟩ := List.exists_cons_of_ne_nil hne
    have hmore_ne : more ≠ [] := by
      rintro rfl
      exact hlt (by rw [← hmore, List.append_nil])
    by_cases h : c.val.toNat < 0x80
    · -- one byte has no beginning that is not all of it
      rw [String.utf8EncodeChar, if_pos (by omega), List.cons_append] at hmore
      have htail := (List.append_eq_nil_iff.mp (List.cons.inj hmore).2).2
      exact absurd htail hmore_ne
    · obtain ⟨b', p, tails, henc, hstart, hcont, hlen, -⟩ := exists_continues_of_encodeChar h
      rw [henc, List.cons_append] at hmore
      obtain ⟨rfl, rfl⟩ := List.cons.inj hmore
      have hpos := List.length_pos_of_ne_nil hmore_ne
      rw [List.length_append] at hlen
      exact ⟨_, b, p, conts, rfl, hstart, (Partial.continues_append.mp hcont).1, by omega, rfl⟩
  · rintro ⟨q, h⟩
    exact h.begins

/-- Whenever the machine ends inside a character, the last of the bytes begin one. -/
theorem exists_opened_of_run {bytes : List UInt8} {q : Partial} (h : (run none bytes).2 = some q) :
    ∃ pre part, bytes = pre ++ part ∧ Opened part q := by
  induction bytes using List.reverseRecOn generalizing q with
  | nil => cases h
  | append_singleton bytes b ih =>
    rw [run_append, run_cons, run_nil] at h
    -- a byte that is read from between characters can only open one
    have hbegin : (begin b).2 = some q → ∃ pre part, bytes ++ [b] = pre ++ part ∧ Opened part q := by
      intro hb
      cases hstart : start b with
      | whole c => rw [begin, hstart] at hb; cases hb
      | refused => rw [begin, hstart] at hb; cases hb
      | opens p =>
        rw [begin, hstart] at hb
        cases hb
        exact ⟨bytes, [b], rfl, opened_singleton hstart⟩
    cases hstate : (run none bytes).2 with
    | none =>
      rw [hstate] at h
      exact hbegin h
    | some p =>
      rw [hstate] at h
      by_cases hb : p.Allows b
      · by_cases howed : p.owed ≤ 1
        · -- the character is complete, and the machine is out of it
          rw [step_of_allows hb, if_pos howed] at h
          cases h
        · -- the byte joins those that opened the character
          rw [step_of_allows hb, if_neg howed] at h
          cases h
          obtain ⟨pre, part, rfl, hpart⟩ := ih hstate
          exact ⟨pre, part ++ [b], List.append_assoc _ _ _, hpart.concat hb (by omega)⟩
      · rw [step_of_not_allows hb] at h
        exact hbegin h

end BuildStep.Utf8
