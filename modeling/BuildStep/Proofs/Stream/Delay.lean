import BuildStep.Proofs.Stream.SplitText

/-!
# How long text waits

Text must not wait for longer than it takes to tell what it is.  After any frames the text of a
stream is that of all bytes that the stream has brought, up to an unfinished character at their end,
and only the bytes of this one wait.

Of a stream that brings the bytes of a text, all characters are told that have come in whole, and none
besides.  Of a stream that brings other bytes, most flaws are told at once as well; but where the
second byte of a character cannot follow the first, the decoder does not see it and waits for the
others.

## Key results

- `held_texts`, `textOf_texts`: what waits after any frames, and what was told
- `begins_held_iff`: what waits is the beginning of a character unless its second byte does not fit
- `told_of_encode`: the characters of a text are told as they come in
-/

namespace BuildStep

namespace Utf8

open TextDecoder (waiting heldBack_append_cons waiting_of_heldBack isContinuation_of_continues)

/-! ## The bytes of a text -/

/-- A character is a byte that tells how many there are, and as many continuation bytes. -/
theorem exists_encodeChar_eq (c : Char) :
    ∃ b conts, String.utf8EncodeChar c = b :: conts ∧ isContinuation b = false ∧
      (∀ x ∈ conts, isContinuation x = true) ∧
      ∀ width, width? b = some width → width = conts.length + 1 := by
  by_cases h : c.val.toNat < 0x80
  · have hb : (UInt8.ofNat c.val.toNat).toNat = c.val.toNat := toNat_ofNat_of_lt (by omega)
    have hchar := encodeChar_of_one (b := UInt8.ofNat c.val.toNat) (by omega)
    rw [hb, show Char.ofNat c.val.toNat = c from Char.ofNat_toNat c] at hchar
    refine ⟨_, [], hchar, ?_, fun x hx => absurd hx List.not_mem_nil, ?_⟩
    · rw [Bool.eq_false_iff, ne_eq, isContinuation_iff]
      omega
    · intro width hwidth
      rw [width?_eq, if_neg (by omega), if_neg (by omega), if_neg (by omega)] at hwidth
      cases hwidth
  · obtain ⟨b, p, conts, henc, hstart, hcont, hlen, -⟩ := exists_continues_of_encodeChar h
    have hwidth := width?_of_opens hstart
    refine ⟨b, conts, henc, Bool.eq_false_iff.mpr (TextDecoder.of_width? hwidth).1, ?_, ?_⟩
    · exact isContinuation_of_continues (opened_singleton hstart) hcont (Nat.le_of_eq hlen)
    · intro width hwidth'
      rw [hwidth] at hwidth'
      cases hwidth'
      rw [hlen]

/-- After whole characters nothing is held back. -/
theorem waiting_encode (t : Text) : waiting (encode t) = [] := by
  induction t using List.reverseRecOn with
  | nil => rfl
  | append_singleton t c _ =>
    -- the last character decides, and it has all the bytes that its first one asks for
    obtain ⟨b, conts, henc, hb, hconts, hwidth⟩ := exists_encodeChar_eq c
    rw [encode_append, encode_cons, henc, show encode [] = [] from rfl, List.append_nil]
    have hheld := heldBack_append_cons (encode t) (Bool.eq_false_iff.mp hb) hconts
    apply waiting_of_heldBack
    rw [hheld]
    split
    · rename_i width hw
      rw [if_neg (by rw [hwidth width hw]; omega)]
    · rfl

/-- The beginning of a character is held back. -/
theorem Begins.waiting_eq {part : List UInt8} (h : Begins part) (pre : List UInt8) :
    waiting (pre ++ part) = part := by
  obtain ⟨q, hopened⟩ := (begins_iff part).mp h
  exact (TextDecoder.unfinished_of_opened hopened).waiting_eq pre

/-- Of the characters that follow, a part of the first has come in, or nothing. -/
def PartOfNext (rest : Text) (part : List UInt8) : Prop :=
  part = [] ∨ ∃ c more, rest = c :: more ∧ part <+: String.utf8EncodeChar c ∧
    part ≠ String.utf8EncodeChar c

/-- The first bytes of a text are some of its characters and a part of the next. -/
theorem exists_of_prefix_encode {t : Text} {bytes : List UInt8} (h : bytes <+: encode t) :
    ∃ whole rest part, t = whole ++ rest ∧ bytes = encode whole ++ part ∧
      PartOfNext rest part := by
  induction t generalizing bytes with
  | nil => exact ⟨[], [], [], rfl, List.prefix_nil.mp h, .inl rfl⟩
  | cons c t ih =>
    rw [encode_cons] at h
    have hchar : String.utf8EncodeChar c <+: String.utf8EncodeChar c ++ encode t :=
      List.prefix_append _ _
    by_cases hpart : bytes <+: String.utf8EncodeChar c ∧ bytes ≠ String.utf8EncodeChar c
    · -- not even the first character is there
      exact ⟨[], c :: t, bytes, rfl, rfl, .inr ⟨c, t, rfl, hpart⟩⟩
    · -- the first character is there, and the other bytes are the first of the rest
      obtain ⟨bytes', rfl⟩ : String.utf8EncodeChar c <+: bytes := by
        obtain hshort | hlong := List.prefix_or_prefix_of_prefix h hchar
        · have hall : bytes = String.utf8EncodeChar c := by
            by_contra hne
            exact hpart ⟨hshort, hne⟩
          exact hall ▸ List.prefix_refl _
        · exact hlong
      obtain ⟨whole, rest, part, rfl, rfl, hrest⟩ := ih ((List.prefix_append_right_inj _).mp h)
      exact ⟨c :: whole, rest, part, rfl, by rw [encode_cons, List.append_assoc], hrest⟩

/-- Only the part of a character that has not come in whole is held back. -/
theorem waiting_of_part {whole rest : Text} {part : List UInt8} (h : PartOfNext rest part) :
    waiting (encode whole ++ part) = part := by
  by_cases hnil : part = []
  · rw [hnil, List.append_nil]
    exact waiting_encode whole
  · obtain ⟨c, more, -, hpart, hne⟩ := h.resolve_left hnil
    have hbegins : Begins part := ⟨hnil, c, hpart, hne⟩
    exact hbegins.waiting_eq (encode whole)

/-- The longest text that another starts with and whose bytes have all come in. -/
structure IsWholeOf (t : Text) (bytes : List UInt8) (whole : Text) : Prop where
  starts : whole <+: t
  received : encode whole <+: bytes
  longest : ∀ longer, longer <+: t → encode longer <+: bytes → longer <+: whole

/-- Characters and a part of the next, but not all of it, are as much as there is of a text. -/
theorem isWholeOf_of_part {whole rest : Text} {part : List UInt8} (h : PartOfNext rest part) :
    IsWholeOf (whole ++ rest) (encode whole ++ part) whole where
  starts := List.prefix_append _ _
  received := List.prefix_append _ _
  longest longer hstarts hreceived := by
    obtain hshort | ⟨more, rfl⟩ :=
      List.prefix_or_prefix_of_prefix hstarts (List.prefix_append whole rest)
    · exact hshort
    -- if there were more characters, the next one would be in the part
    rw [List.prefix_append_right_inj] at hstarts
    rw [encode_append, List.prefix_append_right_inj] at hreceived
    cases more with
    | nil => simp
    | cons c more =>
      exfalso
      rw [encode_cons] at hreceived
      have hchar : String.utf8EncodeChar c <+: part := (List.prefix_append _ _).trans hreceived
      obtain rfl | ⟨c', more', rfl, hpart, hne⟩ := h
      · exact encodeChar_ne_nil c (List.prefix_nil.mp hchar)
      · have hc : c = c' := (List.cons_prefix_cons.mp hstarts).1
        rw [hc] at hchar
        exact hne (hpart.eq_of_length (Nat.le_antisymm hpart.length_le hchar.length_le))

end Utf8

/-! ## What was told, and what waits -/

namespace Capture

open TextDecoder (waiting completeLength waiting_append waiting_idem Misfit)
open Utf8 (Begins)

theorem bytesOf_append (s : StreamType) (a b : List Frame) :
    bytesOf s (a ++ b) = bytesOf s a ++ bytesOf s b := by
  simp [bytesOf]

/-- From a decoder on that holds back no more than it has to, what waits after any frames is what
would wait if all bytes had come at once. -/
theorem held_texts {d : TextDecoder} {s : StreamType} (h : waiting (d.held s) = d.held s)
    (frames : List Frame) :
    (texts d frames).2.held s = waiting (d.held s ++ bytesOf s frames) := by
  induction frames generalizing d with
  | nil =>
    show d.held s = waiting (d.held s ++ [])
    rw [List.append_nil, h]
  | cons f frames ih =>
    rw [texts_cons, bytesOf_cons]
    by_cases hs : f.stream = s
    · subst hs
      have hheld := TextDecoder.held_decode_self d f.stream f.payload
      rw [if_pos rfl, ih (by rw [hheld, waiting_idem]), hheld, ← List.append_assoc,
        ← waiting_append]
    · have hheld : (d.decode f.stream f.payload).2.held s = d.held s :=
        TextDecoder.held_hold_of_ne d (Ne.symm hs) _
      rw [if_neg hs, List.nil_append, ih (by rw [hheld, h]), hheld]

theorem held_texts_new (frames : List Frame) (s : StreamType) :
    (texts .new frames).2.held s = waiting (bytesOf s frames) := by
  have hheld := held_texts (d := .new) (s := s) (by rw [TextDecoder.held_new]; rfl) frames
  rwa [TextDecoder.held_new, List.nil_append] at hheld

/-- The text that was told after any frames is that of all bytes before those that wait. -/
theorem textOf_texts (frames : List Frame) (s : StreamType) :
    textOf s (texts .new frames).1 =
      Utf8.decode ((bytesOf s frames).take (completeLength (bytesOf s frames))) := by
  have hcut := TextDecoder.decode_take_append_decode_drop (bytesOf s frames) []
  rw [List.append_nil, List.append_nil, ← textOf_texts_new] at hcut
  -- what waits would be told in the same way in either case
  have hfinish : ((texts .new frames).2.finish s).1 = Utf8.decode (waiting (bytesOf s frames)) := by
    rw [← held_texts_new]
    rfl
  rw [hfinish] at hcut
  exact (List.append_cancel_right hcut).symm

/-- What a `TextDecoder` holds after some frames is nothing or `Begins` a character, except exactly
where it is a `Misfit`. -/
theorem begins_held_iff (frames : List Frame) (s : StreamType) :
    ((texts .new frames).2.held s = [] ∨ Begins ((texts .new frames).2.held s)) ↔
      ¬Misfit ((texts .new frames).2.held s) := by
  rw [held_texts_new]
  obtain hnone | hpart := TextDecoder.waiting_cases (bytesOf s frames)
  · rw [hnone]
    exact iff_of_true (.inl rfl) fun ⟨b, x, more, heq, _⟩ => by cases heq
  · rw [or_iff_right hpart.ne_nil]
    exact hpart.begins_iff

/-- Two bytes that write a character in too long a form wait, although nothing that could follow makes
them one. -/
theorem exists_held_misfit : ∃ frames s, (texts .new frames).2.held s ≠ [] ∧
    ¬Begins ((texts .new frames).2.held s) := by
  have hheld : (texts .new [⟨.stdout, [0xE0, 0x80]⟩]).2.held .stdout = [0xE0, 0x80] := by decide
  refine ⟨[⟨.stdout, [0xE0, 0x80]⟩], .stdout, ?_, ?_⟩
  · rw [hheld]
    exact List.cons_ne_nil _ _
  · rw [hheld]
    have hcontinues : ∀ x ∈ [(0x80 : UInt8)], Utf8.isContinuation x = true :=
      List.forall_mem_singleton.mpr (by decide)
    have hpart : TextDecoder.Unfinished [0xE0, 0x80] :=
      ⟨0xE0, [0x80], 3, rfl, rfl, hcontinues, by decide⟩
    rw [hpart.begins_iff, not_not]
    exact TextDecoder.misfit_cons_cons.mpr (by decide)

/-- Of a stream that brings `Utf8.encode t`, after any of its frames all whole characters were told,
and the `TextDecoder` holds the bytes of the next one; in the end everything was told. -/
theorem told_of_encode {t : Text} {s : StreamType} {before after : List Frame}
    (h : bytesOf s (before ++ after) = Utf8.encode t) :
    let told := textOf s (texts .new before).1
    let d := (texts .new before).2
    Utf8.IsWholeOf t (bytesOf s before) told ∧
      (bytesOf s before = Utf8.encode told ++ d.held s ∧
        ∃ rest, t = told ++ rest ∧ Utf8.PartOfNext rest (d.held s)) ∧
      (bytesOf s after = [] → told = t ∧ d.held s = [] ∧ (d.finish s).1 = []) := by
  intro told d
  rw [bytesOf_append] at h
  obtain ⟨whole, rest, part, rfl, hbytes, hpart⟩ :=
    Utf8.exists_of_prefix_encode (t := t) ⟨bytesOf s after, h⟩
  have hwaiting : waiting (bytesOf s before) = part := by
    rw [hbytes]
    exact Utf8.waiting_of_part hpart
  have hheld : d.held s = part := (held_texts_new before s).trans hwaiting
  have htold : told = whole := by
    have htake := TextDecoder.take_append_waiting (bytesOf s before)
    rw [hwaiting, hbytes] at htake
    rw [show told = _ from textOf_texts before s, hbytes, List.append_cancel_right htake,
      Utf8.decode_encode]
  have hwhole : Utf8.IsWholeOf (whole ++ rest) (Utf8.encode whole ++ part) whole :=
    Utf8.isWholeOf_of_part hpart
  rw [htold, hheld, hbytes]
  refine ⟨hwhole, ⟨rfl, rest, rfl, hpart⟩, fun hlast => ?_⟩
  -- all bytes have come, so the text itself is as much as there is of it
  rw [hlast, List.append_nil, hbytes] at h
  have hall : whole ++ rest <+: whole :=
    hwhole.longest _ (List.prefix_refl _) (h ▸ List.prefix_refl _)
  have hrest : rest = [] := List.append_right_eq_self.mp (hall.eq_of_length_le (by simp))
  rw [hrest, List.append_nil] at h
  have hpart' : part = [] := List.append_right_eq_self.mp h
  rw [hrest, List.append_nil, TextDecoder.finish, hheld, hpart']
  exact ⟨rfl, rfl, rfl⟩

/-- A euro sign has come in but for its last byte, behind another stream's bytes and an accented
letter in two pieces. -/
theorem told_of_encode_of_split_euro :
    bytesOf .stdout ([⟨.stdout, [0xC3]⟩, ⟨.stderr, [0xE2]⟩, ⟨.stdout, [0xA9, 0xE2, 0x82]⟩] ++
        [⟨.stdout, [0xAC]⟩]) = Utf8.encode ['é', '€'] ∧
      Utf8.IsWholeOf ['é', '€'] [0xC3, 0xA9, 0xE2, 0x82] ['é'] ∧
      [0xC3, 0xA9, 0xE2, 0x82] = Utf8.encode ['é'] ++ [0xE2, 0x82] ∧
      ∃ rest, ['é', '€'] = ['é'] ++ rest ∧ Utf8.PartOfNext rest [0xE2, 0x82] := by
  have hbytes : bytesOf .stdout ([⟨.stdout, [0xC3]⟩, ⟨.stderr, [0xE2]⟩,
      ⟨.stdout, [0xA9, 0xE2, 0x82]⟩] ++ [⟨.stdout, [0xAC]⟩]) = Utf8.encode ['é', '€'] := by decide
  have htold := told_of_encode hbytes
  exact ⟨hbytes, htold.1, htold.2.1⟩

end Capture

end BuildStep
