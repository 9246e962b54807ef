import BuildStep.Proofs.Text.Character
import BuildStep.Stream.TextDecoder

/-!
# What a decoder holds back

At the end of the bytes that it has, a decoder looks for the last one that is no continuation byte.
If that starts a character of more bytes than there are from it on, these wait for the others; if not,
nothing waits.

This is coarser than UTF-8, in which the first byte of a character also has a say in which bytes may
come second.  All that begins a character is held back, but not all that is held back begins one.

## Key results

- `heldBack_eq_heldBackFrom`: a window of three bytes shows as much as all of them
- `heldBack_append_cons`, `heldBack_of_forall`: how much is held back
- `waiting_append`: what comes later is held back as if all bytes had come at once
- `held_decode_self`, `held_decode_of_ne`: what waits after one more payload
- `unfinished_of_opened`: all that begins a character is held back
- `Unfinished.begins_iff`: and what else is
-/

namespace BuildStep.TextDecoder

open Utf8 (Partial Opened Begins isContinuation isContinuation_iff)

/-- A byte that starts a character of several bytes, and fewer continuation bytes than that has. -/
def Unfinished (part : List UInt8) : Prop :=
  ∃ b conts width, part = b :: conts ∧ Utf8.width? b = some width ∧
    (∀ x ∈ conts, isContinuation x = true) ∧ conts.length + 1 < width

/-- The bytes at the end that are held back. -/
def waiting (bytes : List UInt8) : List UInt8 :=
  bytes.drop (completeLength bytes)

theorem take_append_waiting (bytes : List UInt8) :
    bytes.take (completeLength bytes) ++ waiting bytes = bytes :=
  List.take_append_drop _ _

/-! ## How many bytes are held back -/

theorem heldBackFrom_append {conts : List UInt8} (h : ∀ b ∈ conts, isContinuation b = true)
    (tails : Nat) (rest : List UInt8) :
    heldBackFrom tails (conts ++ rest) = heldBackFrom (tails + conts.length) rest := by
  induction conts generalizing tails with
  | nil => rfl
  | cons b conts ih =>
    have hconts := fun x hx => h x (List.mem_cons_of_mem b hx)
    rw [List.cons_append, heldBackFrom, if_pos (h b List.mem_cons_self), ih hconts,
      List.length_cons, Nat.add_assoc, Nat.add_comm 1]

/-- A window on continuation bytes alone finds no character that they could belong to. -/
theorem heldBackFrom_of_forall {conts : List UInt8} (h : ∀ b ∈ conts, isContinuation b = true)
    (tails : Nat) : heldBackFrom tails conts = 0 := by
  have happend := heldBackFrom_append h tails []
  rwa [List.append_nil] at happend

/-- Continuation bytes that follow no start of a character are not held back. -/
theorem heldBack_of_forall {bytes : List UInt8} (h : ∀ b ∈ bytes, isContinuation b = true) :
    heldBack bytes = 0 :=
  heldBackFrom_of_forall (fun b hb => h b (List.mem_reverse.mp (List.mem_of_mem_take hb))) 0

theorem of_width? {b : UInt8} {width : Nat} (h : Utf8.width? b = some width) :
    ¬isContinuation b = true ∧ width ≤ 4 := by
  rw [isContinuation_iff]
  rw [Utf8.width?_eq] at h
  split at h
  · cases h; omega
  split at h
  · cases h; omega
  split at h
  · cases h; omega
  · cases h

/-- More than two continuation bytes are too many for any character. -/
theorem heldBackFrom_of_three_le {tails : Nat} (h : 3 ≤ tails) (bytes : List UInt8) :
    heldBackFrom tails bytes = 0 := by
  induction bytes generalizing tails with
  | nil => rfl
  | cons b bytes ih =>
    rw [heldBackFrom]
    split
    · exact ih (by omega)
    split
    · rename_i width hwidth
      have hle := (of_width? hwidth).2
      exact if_neg (by omega)
    · rfl

/-- A window that has room for three bytes, those counted before among them, shows what there is. -/
theorem heldBackFrom_take {tails : Nat} (h : tails ≤ 3) (bytes : List UInt8) :
    heldBackFrom tails (bytes.take (3 - tails)) = heldBackFrom tails bytes := by
  induction bytes generalizing tails with
  | nil => rw [List.take_nil]
  | cons b bytes ih =>
    by_cases hfull : tails = 3
    · -- the window is used up, and whatever comes is too far back
      subst hfull
      rw [heldBackFrom_of_three_le (Nat.le_refl 3) (b :: bytes)]
      rfl
    · have hroom : 3 - tails = (3 - (tails + 1)) + 1 := by omega
      rw [hroom, List.take_succ_cons, heldBackFrom, heldBackFrom, ih (by omega)]

/-- The last three bytes tell as much as all of them. -/
theorem heldBack_eq_heldBackFrom (bytes : List UInt8) :
    heldBack bytes = heldBackFrom 0 bytes.reverse :=
  heldBackFrom_take (Nat.zero_le 3) bytes.reverse

/-- The last byte that is no continuation byte decides alone: it and those behind it are held back if
it starts a character of more bytes. -/
theorem heldBack_append_cons (pre : List UInt8) {b : UInt8} {conts : List UInt8}
    (hb : ¬isContinuation b = true) (hconts : ∀ x ∈ conts, isContinuation x = true) :
    heldBack (pre ++ b :: conts) =
      match Utf8.width? b with
      | some width => if conts.length + 1 < width then conts.length + 1 else 0
      | none => 0 := by
  have hreverse : ∀ x ∈ conts.reverse, isContinuation x = true :=
    fun x hx => hconts x (List.mem_reverse.mp hx)
  have hbytes : (pre ++ b :: conts).reverse = conts.reverse ++ b :: pre.reverse := by simp
  rw [heldBack_eq_heldBackFrom, hbytes, heldBackFrom_append hreverse, List.length_reverse,
    Nat.zero_add, heldBackFrom]
  exact if_neg hb

/-- Any bytes are continuation bytes, or some byte is the last that is none. -/
theorem exists_lastStart (bytes : List UInt8) :
    (∀ x ∈ bytes, isContinuation x = true) ∨
      ∃ pre b conts, bytes = pre ++ b :: conts ∧ ¬isContinuation b = true ∧
        ∀ x ∈ conts, isContinuation x = true := by
  induction bytes with
  | nil => exact .inl fun x hx => absurd hx List.not_mem_nil
  | cons b bytes ih =>
    obtain hall | ⟨pre, b', conts, rfl, hb', hconts⟩ := ih
    · by_cases hb : isContinuation b = true
      · exact .inl (List.forall_mem_cons.mpr ⟨hb, hall⟩)
      · exact .inr ⟨[], b, bytes, rfl, hb, hall⟩
    · exact .inr ⟨b :: pre, b', conts, rfl, hb', hconts⟩

/-! ## Which bytes are held back -/

theorem waiting_of_heldBack {bytes : List UInt8} (h : heldBack bytes = 0) : waiting bytes = [] := by
  rw [waiting, completeLength, h, Nat.sub_zero, List.drop_length]

/-- An unfinished character at the end is held back. -/
theorem Unfinished.waiting_eq {part : List UInt8} (h : Unfinished part) (pre : List UInt8) :
    waiting (pre ++ part) = part := by
  obtain ⟨b, conts, width, rfl, hwidth, hconts, hlt⟩ := h
  have hheld := heldBack_append_cons pre (of_width? hwidth).1 hconts
  simp only [hwidth] at hheld
  rw [if_pos hlt] at hheld
  have hlength : completeLength (pre ++ b :: conts) = pre.length := by
    rw [completeLength, hheld]
    simp
  rw [waiting, hlength, List.drop_left]

theorem Unfinished.ne_nil {part : List UInt8} (h : Unfinished part) : part ≠ [] := by
  obtain ⟨b, conts, _, rfl, -⟩ := h
  exact List.cons_ne_nil b conts

/-- Nothing else is held back. -/
theorem waiting_cases (bytes : List UInt8) : waiting bytes = [] ∨ Unfinished (waiting bytes) := by
  obtain hall | ⟨pre, b, conts, rfl, hb, hconts⟩ := exists_lastStart bytes
  · exact .inl (waiting_of_heldBack (heldBack_of_forall hall))
  · have hheld := heldBack_append_cons pre hb hconts
    split at hheld
    · rename_i width hwidth
      by_cases hlt : conts.length + 1 < width
      · have hpart : Unfinished (b :: conts) := ⟨b, conts, width, rfl, hwidth, hconts, hlt⟩
        rw [hpart.waiting_eq pre]
        exact .inr hpart
      · rw [if_neg hlt] at hheld
        exact .inl (waiting_of_heldBack hheld)
    · exact .inl (waiting_of_heldBack hheld)

/-- A character that is unfinished was so before its last bytes came. -/
theorem Unfinished.of_append {part more : List UInt8} (h : Unfinished (part ++ more))
    (hne : part ≠ []) : Unfinished part := by
  obtain ⟨b, conts, width, heq, hwidth, hconts, hlt⟩ := h
  obtain ⟨b', first, rfl⟩ := List.exists_cons_of_ne_nil hne
  obtain ⟨rfl, rfl⟩ := List.cons.inj heq
  refine ⟨b', first, width, rfl, hwidth, fun x hx => hconts x (List.mem_append_left more hx), ?_⟩
  simp only [List.append_eq, List.length_append] at hlt
  omega

/-- An unfinished character at the end of all bytes stands at the end of those that wait and those
that come. -/
theorem Unfinished.waiting_waiting {bytes more pre part : List UInt8} (h : Unfinished part)
    (heq : bytes ++ more = pre ++ part) : waiting (waiting bytes ++ more) = part := by
  obtain ⟨between, rfl, rfl⟩ | ⟨first, rfl, rfl⟩ := List.append_eq_append_iff.mp heq
  · -- all of it has come only now
    rw [← List.append_assoc]
    exact h.waiting_eq _
  · by_cases hfirst : first = []
    · subst hfirst
      exact h.waiting_eq _
    · -- its first bytes were waiting already
      rw [(h.of_append hfirst).waiting_eq pre]
      exact h.waiting_eq []

/-- Bytes that come later are held back as if all had come at once. -/
theorem waiting_append (bytes more : List UInt8) :
    waiting (bytes ++ more) = waiting (waiting bytes ++ more) := by
  obtain hnone | hpart := waiting_cases (bytes ++ more)
  · obtain hnone' | hpart' := waiting_cases (waiting bytes ++ more)
    · rw [hnone, hnone']
    · -- what is unfinished at the end of some of the bytes is so at the end of all
      have hall : bytes ++ more = (bytes.take (completeLength bytes) ++
          (waiting bytes ++ more).take (completeLength (waiting bytes ++ more))) ++
            waiting (waiting bytes ++ more) := by
        rw [List.append_assoc, take_append_waiting, ← List.append_assoc, take_append_waiting]
      rw [hall, hpart'.waiting_eq]
  · exact (hpart.waiting_waiting (take_append_waiting (bytes ++ more)).symm).symm

theorem waiting_idem (bytes : List UInt8) : waiting (waiting bytes) = waiting bytes := by
  have happend := waiting_append bytes []
  rw [List.append_nil, List.append_nil] at happend
  exact happend.symm

theorem held_new (s : StreamType) : new.held s = [] := by
  cases s <;> rfl

/-- On the stream of a payload there waits what is unfinished with it. -/
theorem held_decode_self (d : TextDecoder) (s : StreamType) (payload : List UInt8) :
    (d.decode s payload).2.held s = waiting (d.held s ++ payload) :=
  held_hold_self d s _

/-- On the other streams the same waits as before. -/
theorem held_decode_of_ne (d : TextDecoder) {s s' : StreamType} (h : s' ≠ s)
    (payload : List UInt8) : (d.decode s payload).2.held s' = d.held s' :=
  held_hold_of_ne d h _

/-! ## Beginnings of characters -/

/-- A place inside a character expects a continuation byte. -/
theorem isContinuation_of_allows {part : List UInt8} {q : Partial} {b : UInt8}
    (h : Opened part q) (hb : q.Allows b) : isContinuation b = true := by
  have hrange := h.range
  obtain ⟨hlow, hhigh⟩ := hb
  exact (isContinuation_iff b).mpr ⟨by omega, by omega⟩

/-- The bytes of a character after its first are continuation bytes. -/
theorem isContinuation_of_continues {part conts : List UInt8} {q : Partial} (h : Opened part q)
    (hconts : q.Continues conts) (hlen : conts.length ≤ q.owed) :
    ∀ b ∈ conts, isContinuation b = true := by
  induction conts generalizing part q with
  | nil => exact fun _ hb => absurd hb List.not_mem_nil
  | cons x conts ih =>
    intro b hb
    obtain rfl | hb := List.mem_cons.mp hb
    · exact isContinuation_of_allows h hconts.1
    · -- the next place is inside the same character, since that owes more
      have hpos := List.length_pos_of_mem hb
      rw [List.length_cons] at hlen
      refine ih (h.concat hconts.1 (by omega)) hconts.2 ?_ b hb
      show conts.length ≤ q.owed - 1
      omega

/-- All that begins a character is unfinished. -/
theorem unfinished_of_opened {part : List UInt8} {q : Partial} (h : Opened part q) :
    Unfinished part := by
  obtain ⟨b, p, conts, rfl, hstart, hcont, hlen, -⟩ := h
  refine ⟨b, conts, p.owed + 1, rfl, Utf8.width?_of_opens hstart, ?_, by omega⟩
  exact isContinuation_of_continues (Utf8.opened_singleton hstart) hcont (Nat.le_of_lt hlen)

/-- The second byte cannot follow the first: the two would write a character that has a shorter form,
half a surrogate pair, or a value past U+10FFFF. -/
def Misfit (part : List UInt8) : Prop :=
  ∃ b x more, part = b :: x :: more ∧
    (b = 0xE0 ∧ x < 0xA0 ∨ b = 0xED ∧ 0x9F < x ∨ b = 0xF0 ∧ x < 0x90 ∨ b = 0xF4 ∧ 0x8F < x)

theorem misfit_cons_cons {b x : UInt8} {more : List UInt8} :
    Misfit (b :: x :: more) ↔
      b.toNat = 0xE0 ∧ x.toNat < 0xA0 ∨ b.toNat = 0xED ∧ 0x9F < x.toNat ∨
        b.toNat = 0xF0 ∧ x.toNat < 0x90 ∨ b.toNat = 0xF4 ∧ 0x8F < x.toNat := by
  have hbytes : Misfit (b :: x :: more) ↔
      b = 0xE0 ∧ x < 0xA0 ∨ b = 0xED ∧ 0x9F < x ∨ b = 0xF0 ∧ x < 0x90 ∨ b = 0xF4 ∧ 0x8F < x := by
    constructor
    · rintro ⟨b', x', more', heq, h⟩
      cases heq
      exact h
    · exact fun h => ⟨b, x, more, rfl, h⟩
  rw [hbytes]
  simp only [UInt8.lt_iff_toNat_lt, ← UInt8.toNat_inj]
  rfl

/-- An unfinished character is the beginning of one unless its second byte cannot follow its first. -/
theorem Unfinished.begins_iff {part : List UInt8} (h : Unfinished part) :
    Begins part ↔ ¬Misfit part := by
  obtain ⟨b, conts, width, rfl, hwidth, hconts, hlt⟩ := h
  obtain ⟨p, hstart, howed, hlow, hhigh⟩ := Utf8.exists_opens_of_width? hwidth
  have hopened : Begins (b :: conts) ↔ p.Continues conts := by
    rw [Utf8.begins_iff]
    constructor
    · rintro ⟨q, b', p', conts', heq, hstart', hcont, -⟩
      cases heq
      rw [hstart] at hstart'
      cases hstart'
      exact hcont
    · exact fun hcont => ⟨_, b, p, conts, rfl, hstart, hcont, by omega, rfl⟩
  rw [hopened]
  cases conts with
  | nil => exact iff_of_true trivial fun ⟨b', x, more, heq, _⟩ => by cases heq
  | cons x more =>
    -- only the second byte has a range of its own
    have hx := (isContinuation_iff x).mp (hconts x List.mem_cons_self)
    have hmore : (p.next x).Continues more :=
      Utf8.continues_of_forall rfl rfl fun y hy => hconts y (List.mem_cons_of_mem x hy)
    have hallows : p.Continues (x :: more) ↔ p.Allows x := and_iff_left hmore
    rw [hallows, Partial.Allows, hlow, hhigh, Utf8.mem_rangeAfter_iff, misfit_cons_cons]
    omega

end BuildStep.TextDecoder
