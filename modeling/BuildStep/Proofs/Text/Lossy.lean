import BuildStep.Proofs.Text.Character
import Mathlib.Data.Nat.Find

/-!
# Lenient reading of UTF-8

What a text stands in some bytes, if they need not be UTF-8: characters where characters stand, and
one U+FFFD for each flaw.  A flaw is as long as there are bytes that begin a character, and one byte
long if there are none.  Nothing here speaks of a machine or of an order of reading.

## Key results

- `pieces_induction`: any bytes are characters and flaws, one after the other
- `lossy_iff`: the lenient reading of bytes is unique, and the machine finds it
- `Flaws.size_decode`: how much longer than the bytes it is
- `decode_append`: where bytes may be cut without a change of the text
-/

namespace BuildStep.Utf8

/-- No character stands at the front of the bytes, and `part` is the longest beginning of one that
does, or a single byte that begins none. -/
structure Flawed (part rest : List UInt8) : Prop where
  no_character : ∀ c, ¬String.utf8EncodeChar c <+: part ++ rest
  begins_or_single : Begins part ∨ part.length = 1
  longest : ∀ longer, Begins longer → longer <+: part ++ rest → longer.length ≤ part.length

/-- The text that stands in bytes, with U+FFFD for each flaw. -/
inductive Lossy : List UInt8 → Text → Prop
  | nil : Lossy [] []
  | char {rest : List UInt8} {t : Text} (c : Char) (h : Lossy rest t) :
    Lossy (String.utf8EncodeChar c ++ rest) (c :: t)
  | flaw {part rest : List UInt8} {t : Text} (hflaw : Flawed part rest) (h : Lossy rest t) :
    Lossy (part ++ rest) (replacement :: t)

/-- The flaws that stand in bytes, in their order. -/
inductive Flaws : List UInt8 → List (List UInt8) → Prop
  | nil : Flaws [] []
  | char {rest : List UInt8} {flaws : List (List UInt8)} (c : Char) (h : Flaws rest flaws) :
    Flaws (String.utf8EncodeChar c ++ rest) flaws
  | flaw {part rest : List UInt8} {flaws : List (List UInt8)} (hflaw : Flawed part rest)
    (h : Flaws rest flaws) : Flaws (part ++ rest) (part :: flaws)

/-- By how many bytes some flaws are shorter than the U+FFFD that are read for them. -/
def shortage : (flaws : List (List UInt8)) → Nat
  | [] => 0
  | flaw :: flaws => 3 - flaw.length + shortage flaws

/-! ## Where the machine can be cut -/

theorem decode_eq (bytes : List UInt8) :
    decode bytes = (run none bytes).1 ++ finish (run none bytes).2 := rfl

/-- Bytes may be cut where no character would go on. -/
theorem decode_append {bytes rest : List UInt8}
    (h : ∀ p b, (run none bytes).2 = some p → rest.head? = some b → ¬p.Allows b) :
    decode (bytes ++ rest) = decode bytes ++ decode rest := by
  rw [decode_eq, decode_eq bytes, decode_eq rest, run_append]
  cases hstate : (run none bytes).2 with
  | none =>
    show ((run none bytes).1 ++ (run none rest).1) ++ _ = ((run none bytes).1 ++ []) ++ _
    rw [List.append_nil, List.append_assoc]
  | some p =>
    cases rest with
    | nil => simp only [run_nil, List.append_nil, finish]
    | cons b rest =>
      -- the byte writes U+FFFD for what is given up, which is also what the end would write
      have hstep : step (some p) b = (replacement :: (step none b).1, (step none b).2) :=
        step_of_not_allows (h p b hstate rfl)
      rw [run_cons, run_cons none, hstep]
      simp only [finish, List.append_assoc, List.cons_append, List.nil_append]

theorem decode_encodeChar_append (c : Char) (rest : List UInt8) :
    decode (String.utf8EncodeChar c ++ rest) = c :: decode rest := by
  rw [decode_eq, run_append, run_encodeChar]
  rfl

theorem encode_cons (c : Char) (t : Text) :
    encode (c :: t) = String.utf8EncodeChar c ++ encode t :=
  List.flatMap_cons

theorem encodeChar_ne_nil (c : Char) : String.utf8EncodeChar c ≠ [] := by
  have hpos := c.utf8Size_pos
  rw [← String.length_utf8EncodeChar] at hpos
  exact List.ne_nil_of_length_pos hpos

/-- What was written as a text reads as that text. -/
theorem decode_encode (t : Text) : decode (encode t) = t := by
  induction t with
  | nil => rfl
  | cons c t ih => rw [encode_cons, decode_encodeChar_append, ih]

/-- A byte that begins no character, whole or not, is refused. -/
theorem start_of_flawed {b : UInt8} {rest : List UInt8} (h : Flawed [b] rest)
    (hbegins : ¬Begins [b]) : start b = .refused := by
  cases hstart : start b with
  | refused => rfl
  | opens p => exact absurd (opened_singleton hstart).begins hbegins
  | whole c =>
    exfalso
    have hb : b.toNat < 0x80 := lt_of_start_eq_whole hstart
    exact h.no_character (Char.ofNat b.toNat) ⟨rest, by rw [encodeChar_of_one hb]⟩

theorem decode_of_flawed {part rest : List UInt8} (h : Flawed part rest) :
    decode (part ++ rest) = replacement :: decode rest := by
  by_cases hbegins : Begins part
  · -- the machine is inside a character after the part, and cannot go on
    obtain ⟨q, hq⟩ := (begins_iff part).mp hbegins
    have hpart : decode part = [replacement] := by
      rw [decode_eq, hq.run]
      rfl
    rw [decode_append ?_, hpart]
    · rfl
    intro p b hp hhead hb
    rw [hq.run] at hp
    cases hp
    obtain ⟨rest, rfl⟩ := List.head?_eq_some_iff.mp hhead
    have hprefix : part ++ [b] <+: part ++ b :: rest := ⟨rest, List.append_assoc _ _ _⟩
    -- one more byte is the whole of a character or more of its beginning
    by_cases howed : q.owed ≤ 1
    · have hpos := hq.owed_pos
      obtain ⟨c, hc⟩ := hq.exists_encodeChar (Partial.continues_singleton.mpr hb)
        (show [b].length = q.owed by rw [List.length_singleton]; omega)
      exact h.no_character c (hc ▸ hprefix)
    · have hlong := h.longest _ (hq.concat hb (by omega)).begins hprefix
      rw [List.length_append, List.length_singleton] at hlong
      omega
  · -- the machine refuses the only byte of the part
    obtain ⟨b, rfl⟩ := List.length_eq_one_iff.mp (h.begins_or_single.resolve_left hbegins)
    have hrun : run none [b] = ([replacement], none) := by
      show run none [b] = _
      rw [run_cons, show step none b = begin b from rfl, begin, start_of_flawed h hbegins]
      rfl
    rw [decode_eq, run_append, hrun]
    rfl

/-! ## The reading of any bytes -/

theorem decode_eq_of_lossy {bytes : List UInt8} {t : Text} (h : Lossy bytes t) :
    decode bytes = t := by
  induction h with
  | nil => rfl
  | char c _ ih => rw [decode_encodeChar_append, ih]
  | flaw hflaw _ ih => rw [decode_of_flawed hflaw, ih]

theorem Flawed.length_pos {part rest : List UInt8} (h : Flawed part rest) : 0 < part.length := by
  obtain hbegins | hone := h.begins_or_single
  · exact List.length_pos_of_ne_nil hbegins.1
  · rw [hone]
    exact Nat.one_pos

/-- Where no character stands, there is a flaw. -/
theorem exists_flawed {bytes : List UInt8} (hne : bytes ≠ [])
    (h : ∀ c, ¬String.utf8EncodeChar c <+: bytes) :
    ∃ part rest, bytes = part ++ rest ∧ Flawed part rest := by
  classical
  -- the flaw is as long as the longest beginning, and one byte will always do
  let ok (n : Nat) : Prop := n = 1 ∨ Begins (bytes.take n)
  have hone : 1 ≤ bytes.length := List.length_pos_of_ne_nil hne
  let n := Nat.findGreatest ok bytes.length
  have hn : ok n := Nat.findGreatest_spec hone (.inl rfl)
  have hle : n ≤ bytes.length := Nat.findGreatest_le _
  have hlen : (bytes.take n).length = n := List.length_take_of_le hle
  refine ⟨bytes.take n, bytes.drop n, (List.take_append_drop n bytes).symm, ?_, ?_, ?_⟩
  · rw [List.take_append_drop]
    exact h
  · rw [hlen]
    exact hn.symm
  · intro longer hbegins hprefix
    rw [List.take_append_drop] at hprefix
    have hok : ok longer.length := by
      refine .inr ?_
      rw [← List.prefix_iff_eq_take.mp hprefix]
      exact hbegins
    rw [hlen]
    exact Nat.le_findGreatest hprefix.length_le hok

/-- Bytes can be taken apart from the front, a character or a flaw at a time. -/
@[elab_as_elim]
theorem pieces_induction {motive : List UInt8 → Prop} (nil : motive [])
    (char : ∀ c rest, motive rest → motive (String.utf8EncodeChar c ++ rest))
    (flaw : ∀ part rest, Flawed part rest → motive rest → motive (part ++ rest))
    (bytes : List UInt8) : motive bytes := by
  induction hn : bytes.length using Nat.strongRecOn generalizing bytes with
  | ind n ih =>
    by_cases hne : bytes = []
    · rw [hne]
      exact nil
    -- a character or a flaw stands at the front, and both leave fewer bytes
    by_cases hchar : ∃ c, String.utf8EncodeChar c <+: bytes
    · obtain ⟨c, rest, rfl⟩ := hchar
      have hpos := List.length_pos_of_ne_nil (encodeChar_ne_nil c)
      rw [List.length_append] at hn
      exact char c rest (ih rest.length (by omega) rest rfl)
    · obtain ⟨part, rest, rfl, hflaw⟩ := exists_flawed hne fun c hc => hchar ⟨c, hc⟩
      have hpos := hflaw.length_pos
      rw [List.length_append] at hn
      exact flaw part rest hflaw (ih rest.length (by omega) rest rfl)

theorem lossy_decode (bytes : List UInt8) : Lossy bytes (decode bytes) := by
  induction bytes using pieces_induction with
  | nil => exact .nil
  | char c rest ih =>
    rw [decode_encodeChar_append]
    exact .char c ih
  | flaw part rest hflaw ih =>
    rw [decode_of_flawed hflaw]
    exact .flaw hflaw ih

/-- The lenient reading of any bytes exists, is unique, and is what the machine writes. -/
theorem lossy_iff (bytes : List UInt8) (t : Text) : Lossy bytes t ↔ t = decode bytes := by
  constructor
  · exact fun h => (decode_eq_of_lossy h).symm
  · rintro rfl
    exact lossy_decode bytes

/-! ## The size of what is read -/

variable {bytes : List UInt8} {flaws : List (List UInt8)}

/-- A flaw is no longer than the U+FFFD that is read for it. -/
theorem Flawed.length_le {part rest : List UInt8} (h : Flawed part rest) : part.length ≤ 3 := by
  obtain ⟨-, c, hprefix, hne⟩ | hone := h.begins_or_single
  · -- the beginning of a character is shorter than the character
    have hlt : part.length < (String.utf8EncodeChar c).length := by
      apply Nat.lt_of_le_of_ne hprefix.length_le
      exact fun hlength => hne (List.IsPrefix.eq_of_length hprefix hlength)
    have hsize := c.utf8Size_le_four
    rw [String.length_utf8EncodeChar] at hlt
    omega
  · omega

theorem Flaws.length_mem (h : Flaws bytes flaws) :
    ∀ flaw ∈ flaws, 1 ≤ flaw.length ∧ flaw.length ≤ 3 := by
  induction h with
  | nil => exact fun flaw hmem => absurd hmem List.not_mem_nil
  | char c _ ih => exact ih
  | flaw hflaw _ ih =>
    intro flaw hmem
    obtain rfl | hrest := List.mem_cons.mp hmem
    · exact ⟨hflaw.length_pos, hflaw.length_le⟩
    · exact ih flaw hrest

theorem exists_flaws (bytes : List UInt8) : ∃ flaws, Flaws bytes flaws := by
  induction bytes using pieces_induction with
  | nil => exact ⟨[], .nil⟩
  | char c rest ih =>
    obtain ⟨flaws, h⟩ := ih
    exact ⟨flaws, .char c h⟩
  | flaw part rest hflaw ih =>
    obtain ⟨flaws, h⟩ := ih
    exact ⟨part :: flaws, .flaw hflaw h⟩

/-- The lenient reading has the size of the bytes, but for what the flaws are short of. -/
theorem Flaws.size_decode (h : Flaws bytes flaws) :
    size (decode bytes) = bytes.length + shortage flaws := by
  induction h with
  | nil => rfl
  | char c _ ih =>
    rw [decode_encodeChar_append, size_cons, ih, List.length_append, String.length_utf8EncodeChar]
    omega
  | flaw hflaw _ ih =>
    have hle := hflaw.length_le
    have hthree : replacement.utf8Size = 3 := rfl
    rw [decode_of_flawed hflaw, size_cons, ih, hthree, shortage, List.length_append]
    omega

theorem Flaws.shortage_eq_zero_iff (h : Flaws bytes flaws) :
    shortage flaws = 0 ↔ ∀ flaw ∈ flaws, flaw.length = 3 := by
  induction h with
  | nil => simp [shortage]
  | char c _ ih => exact ih
  | flaw hflaw _ ih =>
    have hle := hflaw.length_le
    rw [shortage, Nat.add_eq_zero_iff, ih, List.forall_mem_cons]
    apply and_congr_left'
    omega

end BuildStep.Utf8
