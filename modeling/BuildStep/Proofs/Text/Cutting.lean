import BuildStep.Text.Basic
import Mathlib.Data.List.DropRight

/-!
# Cutting and trimming text

Records are cut at delimiters and stripped of the blanks around them.  What was joined with a
delimiter in between comes apart at the same places, and a text that is stripped already stays as it
is.

## Key results

- `trim_eq_self`, `isTrimmed_trim`: what trimming leaves alone, and what it leaves
- `trim_blanks_append`, `trim_append_blanks`, `of_not_mem_trim`: what it takes away
- `append_inj_of_forall`: a run at the end is told apart from what is before it
- `cutLast?_append_cons`, `cutLast?_eq_some_iff`: where a text is cut last
- `mem_words`: what a word is made of
-/

namespace BuildStep.Text

/-! ## Blanks at the ends -/

/-- Neither end of the text is blank. -/
structure IsTrimmed (t : Text) : Prop where
  head : ∀ c, t.head? = some c → isBlank c = false
  last : ∀ c, t.getLast? = some c → isBlank c = false

theorem isTrimmed_of_forall {t : Text} (h : ∀ c ∈ t, isBlank c = false) : IsTrimmed t where
  head _ hc := h _ (List.mem_of_head? hc)
  last _ hc := h _ (List.mem_of_getLast? hc)

theorem trimStart_eq_self {t : Text} (h : ∀ c, t.head? = some c → isBlank c = false) :
    trimStart t = t := by
  cases t with
  | nil => rfl
  | cons c rest =>
    have hc := h c rfl
    simp [trimStart, hc]

theorem trimEnd_eq_self {t : Text} (h : ∀ c, t.getLast? = some c → isBlank c = false) :
    trimEnd t = t := by
  have hreverse : ∀ c, t.reverse.head? = some c → isBlank c = false := by
    intro c hc
    rw [List.head?_reverse] at hc
    exact h c hc
  have hsame := trimStart_eq_self hreverse
  rw [trimStart] at hsame
  rw [trimEnd, hsame, List.reverse_reverse]

/-- Trimming leaves a text alone that is trimmed already. -/
theorem trim_eq_self {t : Text} (h : IsTrimmed t) : trim t = t := by
  rw [trim, trimStart_eq_self h.head, trimEnd_eq_self h.last]

theorem trimEnd_isPrefix (t : Text) : trimEnd t <+: t :=
  List.rdropWhile_prefix isBlank t

theorem trimStart_isSuffix (t : Text) : trimStart t <:+ t :=
  List.dropWhile_suffix isBlank

theorem mem_of_mem_trim {t : Text} {c : Char} (h : c ∈ trim t) : c ∈ t := by
  have hstart : c ∈ trimStart t := (trimEnd_isPrefix _).subset h
  exact (trimStart_isSuffix t).subset hstart

/-- The first character that trimming keeps is not blank. -/
theorem head_trimStart {t : Text} {c : Char} (h : (trimStart t).head? = some c) :
    isBlank c = false := by
  have hnot := List.head?_dropWhile_not isBlank t
  rw [trimStart] at h
  rw [h] at hnot
  exact hnot

/-- Neither is the last. -/
theorem last_trimEnd {t : Text} {c : Char} (h : (trimEnd t).getLast? = some c) :
    isBlank c = false := by
  rw [trimEnd, List.getLast?_reverse] at h
  exact head_trimStart h

theorem isTrimmed_trim (t : Text) : IsTrimmed (trim t) where
  head c hc := by
    -- trimming at the end takes nothing from the front
    obtain ⟨rest, hrest⟩ := trimEnd_isPrefix (trimStart t)
    have hfront : (trimStart t).head? = some c := by
      rw [← hrest, List.head?_append]
      rw [trim] at hc
      rw [hc]
      rfl
    exact head_trimStart hfront
  last _ hc := last_trimEnd hc

/-- Before a text without blanks at its front there were only blanks. -/
theorem exists_trimStart (t : Text) :
    ∃ blanks, (∀ c ∈ blanks, isBlank c = true) ∧ t = blanks ++ trimStart t :=
  ⟨t.takeWhile isBlank, fun _ hc => List.mem_takeWhile_imp hc, List.takeWhile_append_dropWhile.symm⟩

/-- So it is at the end. -/
theorem exists_trimEnd (t : Text) :
    ∃ blanks, (∀ c ∈ blanks, isBlank c = true) ∧ t = trimEnd t ++ blanks := by
  obtain ⟨blanks, hblanks, hreverse⟩ := exists_trimStart t.reverse
  refine ⟨blanks.reverse, fun c hc => hblanks c (List.mem_reverse.mp hc), ?_⟩
  have hback := congrArg List.reverse hreverse
  rw [List.reverse_reverse, List.reverse_append] at hback
  exact hback

variable {p : Char → Bool}

/-- Characters with a property that a text ends with are told apart from a text before them that
ends without it. -/
theorem rdropWhile_append {before : Text}
    (hbefore : ∀ c, before.getLast? = some c → p c = false) {after : Text}
    (hafter : ∀ c ∈ after, p c = true) : (before ++ after).rdropWhile p = before := by
  induction after using List.reverseRecOn with
  | nil =>
    rw [List.append_nil, List.rdropWhile_eq_self_iff]
    intro hne
    rw [hbefore _ (List.getLast?_eq_some_getLast hne)]
    exact Bool.false_ne_true
  | append_singleton after c ih =>
    have hc := hafter c (List.mem_append_right after List.mem_cons_self)
    have hrest := ih fun x hx => hafter x (List.mem_append_left [c] hx)
    rw [← List.append_assoc, List.rdropWhile_concat_pos p (before ++ after) c hc, hrest]

/-- So there is one way to take a text apart into the two. -/
theorem append_inj_of_forall {before before' after after' : Text}
    (hbefore : ∀ c, before.getLast? = some c → p c = false)
    (hbefore' : ∀ c, before'.getLast? = some c → p c = false)
    (hafter : ∀ c ∈ after, p c = true) (hafter' : ∀ c ∈ after', p c = true)
    (h : before ++ after = before' ++ after') : before = before' ∧ after = after' := by
  have hsame := rdropWhile_append hbefore hafter
  rw [h, rdropWhile_append hbefore' hafter'] at hsame
  subst hsame
  exact ⟨rfl, List.append_cancel_left h⟩

theorem trimStart_append {blanks after : Text} (hblanks : ∀ c ∈ blanks, isBlank c = true)
    (hafter : ∀ c, after.head? = some c → isBlank c = false) :
    trimStart (blanks ++ after) = after := by
  rw [trimStart, List.dropWhile_append_of_pos hblanks]
  exact trimStart_eq_self hafter

theorem trimEnd_append {before blanks : Text}
    (hbefore : ∀ c, before.getLast? = some c → isBlank c = false)
    (hblanks : ∀ c ∈ blanks, isBlank c = true) : trimEnd (before ++ blanks) = before :=
  rdropWhile_append hbefore hblanks

/-- Blanks before a text are trimmed away with its own. -/
theorem trim_blanks_append {blanks : Text} (h : ∀ c ∈ blanks, isBlank c = true) (t : Text) :
    trim (blanks ++ t) = trim t := by
  rw [trim, trimStart, List.dropWhile_append_of_pos h]
  rfl

/-- So are blanks after it. -/
theorem trim_append_blanks {blanks : Text} (t : Text) (h : ∀ c ∈ blanks, isBlank c = true) :
    trim (t ++ blanks) = trim t := by
  have hend : ∀ x : Text, trimEnd (x ++ blanks) = trimEnd x := by
    intro x
    have hreverse : ∀ c ∈ blanks.reverse, isBlank c = true := fun c hc => h c (List.mem_reverse.mp hc)
    rw [trimEnd, List.reverse_append, List.dropWhile_append_of_pos hreverse]
    rfl
  obtain ⟨before, hbefore, ht⟩ := exists_trimStart t
  have hstart : t ++ blanks = before ++ (trimStart t ++ blanks) := by
    rw [← List.append_assoc, ← ht]
  rw [hstart, trim_blanks_append hbefore]
  cases hempty : trimStart t with
  | nil =>
    -- there is nothing but blanks
    have hnil := trim_blanks_append h []
    rw [List.append_nil] at hnil
    have htrim : trim t = [] := by rw [trim, hempty]; rfl
    rw [List.nil_append, hnil, htrim]
    rfl
  | cons c rest =>
    have hc : isBlank c = false := head_trimStart (by rw [hempty]; rfl)
    have hsame : trimStart ((c :: rest) ++ blanks) = (c :: rest) ++ blanks :=
      trimStart_eq_self fun x hx => by
        cases hx
        exact hc
    rw [trim, hsame, hend, trim, hempty]

/-- What stands before a character of a trimmed text can only have blanks at its end. -/
theorem IsTrimmed.exists_front {front rest : Text} {c : Char} (h : IsTrimmed (front ++ c :: rest)) :
    ∃ blanks, (∀ x ∈ blanks, isBlank x = true) ∧ front = trim front ++ blanks := by
  have hstart : trimStart front = front := by
    refine trimStart_eq_self fun x hx => h.head x ?_
    rw [List.head?_append, hx]
    rfl
  rw [trim, hstart]
  exact exists_trimEnd front

/-- What stands behind it can only have blanks at its front. -/
theorem IsTrimmed.exists_rest {front rest : Text} {c : Char} (h : IsTrimmed (front ++ c :: rest)) :
    ∃ blanks, (∀ x ∈ blanks, isBlank x = true) ∧ rest = blanks ++ trim rest := by
  have hend : trimEnd (trimStart rest) = trimStart rest := by
    refine trimEnd_eq_self fun x hx => h.last x ?_
    obtain ⟨first, hfirst⟩ := trimStart_isSuffix rest
    rw [← hfirst, ← List.cons_append, ← List.append_assoc, List.getLast?_append, hx]
    rfl
  rw [trim, hend]
  exact exists_trimStart rest

theorem trim_eq_nil_iff {t : Text} : trim t = [] ↔ ∀ c ∈ t, isBlank c = true := by
  constructor
  · intro h
    obtain ⟨before, hbefore, ht⟩ := exists_trimStart t
    obtain ⟨after, hafter, hrest⟩ := exists_trimEnd (trimStart t)
    rw [show trimEnd (trimStart t) = [] from h, List.nil_append] at hrest
    rw [ht, hrest]
    exact List.forall_mem_append.mpr ⟨hbefore, hafter⟩
  · intro h
    have hblanks := trim_blanks_append h []
    rwa [List.append_nil] at hblanks

/-- Trimming at the front stops before a character, unless there are only blanks up to it. -/
theorem trimStart_append_cons {before : Text} {c : Char}
    (h : (∀ x ∈ before, isBlank x = true) → isBlank c = false) (after : Text) :
    trimStart (before ++ c :: after) = trimStart before ++ c :: after := by
  rw [trimStart, List.dropWhile_append]
  split
  · rename_i hnone
    have hblanks : ∀ x ∈ before, isBlank x = true := by simpa using hnone
    have hstart : trimStart before = [] := by simpa [trimStart] using hnone
    rw [hstart, List.nil_append, List.dropWhile_cons_of_neg (by simp [h hblanks])]
  · rfl

/-- So it does at the end. -/
theorem trimEnd_append_cons {after : Text} {c : Char}
    (h : (∀ x ∈ after, isBlank x = true) → isBlank c = false) (before : Text) :
    trimEnd (before ++ c :: after) = before ++ c :: trimEnd after := by
  have hreverse : (∀ x ∈ after.reverse, isBlank x = true) → isBlank c = false := by
    simpa using h
  have hstart := trimStart_append_cons hreverse before.reverse
  simp only [trimStart] at hstart
  simp [trimEnd, hstart]

/-- A character that is trimmed away is blank, and on one side of it there are only blanks. -/
theorem of_not_mem_trim {before after : Text} {c : Char} (h : c ∉ trim (before ++ c :: after)) :
    isBlank c = true ∧
      ((∀ x ∈ before, isBlank x = true) ∨ ∀ x ∈ after, isBlank x = true) := by
  by_contra hnot
  have hbefore : (∀ x ∈ before, isBlank x = true) → isBlank c = false := by
    intro hblanks
    by_contra hc
    exact hnot ⟨by simpa using hc, .inl hblanks⟩
  have hafter : (∀ x ∈ after, isBlank x = true) → isBlank c = false := by
    intro hblanks
    by_contra hc
    exact hnot ⟨by simpa using hc, .inr hblanks⟩
  rw [trim, trimStart_append_cons hbefore, trimEnd_append_cons hafter] at h
  exact h (List.mem_append_right _ List.mem_cons_self)

/-! ## Cutting -/

theorem cutLast?_of_forall {t : Text} (h : ∀ c ∈ t, p c = false) : cutLast? p t = none := by
  induction t with
  | nil => rfl
  | cons c rest ih =>
    have hc := h c List.mem_cons_self
    have hrest := ih fun x hx => h x (List.mem_cons_of_mem c hx)
    simp [cutLast?, hrest, hc]

theorem cutLast?_eq_none_iff {t : Text} : cutLast? p t = none ↔ ∀ c ∈ t, p c = false := by
  refine ⟨fun h => ?_, cutLast?_of_forall⟩
  induction t with
  | nil => exact fun _ hc => absurd hc List.not_mem_nil
  | cons c rest ih =>
    rw [cutLast?] at h
    split at h
    · cases h
    · rename_i hrest
      split at h
      · cases h
      · rename_i hc
        exact List.forall_mem_cons.mpr ⟨Bool.eq_false_iff.mpr hc, ih hrest⟩

/-- A text is cut last at a character behind which there is none to cut at. -/
theorem cutLast?_append_cons {c : Char} (hc : p c = true) {after : Text}
    (hafter : ∀ x ∈ after, p x = false) (before : Text) :
    cutLast? p (before ++ c :: after) = some (before, after) := by
  induction before with
  | nil => simp [cutLast?, cutLast?_of_forall hafter, hc]
  | cons x before ih => simp [cutLast?, ih]

theorem cutLast?_eq_some_iff {t before after : Text} :
    cutLast? p t = some (before, after) ↔
      ∃ c, p c = true ∧ (∀ x ∈ after, p x = false) ∧ t = before ++ c :: after := by
  constructor
  · intro h
    induction t generalizing before with
    | nil => cases h
    | cons x rest ih =>
      rw [cutLast?] at h
      split at h
      · rename_i first last hrest
        cases h
        obtain ⟨c, hc, hafter, rfl⟩ := ih hrest
        exact ⟨c, hc, hafter, rfl⟩
      · -- the first character is the last to cut at
        rename_i hrest
        split at h
        · rename_i hx
          cases h
          exact ⟨x, hx, cutLast?_eq_none_iff.mp hrest, rfl⟩
        · cases h
  · rintro ⟨c, hc, hafter, rfl⟩
    exact cutLast?_append_cons hc hafter before

/-- The pieces of a text are made of its characters, and none of them is one to cut at. -/
theorem mem_splitOnP {t piece : Text} (hpiece : piece ∈ t.splitOnP p) :
    ∀ c ∈ piece, p c = false ∧ c ∈ t := by
  induction t generalizing piece with
  | nil =>
    rw [List.splitOnP_nil, List.mem_singleton] at hpiece
    subst hpiece
    intro c hc
    cases hc
  | cons x rest ih =>
    have hrest : ∀ piece ∈ rest.splitOnP p, ∀ c ∈ piece, p c = false ∧ c ∈ x :: rest := by
      intro piece hpiece c hc
      obtain ⟨hnot, hmem⟩ := ih hpiece c hc
      exact ⟨hnot, List.mem_cons_of_mem x hmem⟩
    rw [List.splitOnP_cons_eq_if_modifyHead] at hpiece
    split at hpiece
    · rcases List.mem_cons.mp hpiece with rfl | hpiece
      · intro c hc
        cases hc
      · exact hrest piece hpiece
    · -- a character that is kept goes to the front of the first piece
      rename_i hx
      obtain ⟨first, others, hsplit⟩ := List.exists_cons_of_ne_nil (List.splitOnP_ne_nil p rest)
      rw [hsplit] at hpiece hrest
      rw [List.modifyHead_cons] at hpiece
      rcases List.mem_cons.mp hpiece with rfl | hpiece
      · intro c hc
        rcases List.mem_cons.mp hc with rfl | hc
        · exact ⟨by simpa using hx, List.mem_cons_self⟩
        · exact hrest first List.mem_cons_self c hc
      · exact hrest piece (List.mem_cons_of_mem first hpiece)

theorem mem_splitOn {t piece : Text} {sep : Char} (hpiece : piece ∈ t.splitOn sep) :
    ∀ c ∈ piece, c ≠ sep ∧ c ∈ t := by
  intro c hc
  rw [List.splitOn_eq_splitOnP] at hpiece
  obtain ⟨hnot, hmem⟩ := mem_splitOnP hpiece c hc
  exact ⟨by simpa using hnot, hmem⟩

/-- A word is not empty, and made of the characters of the text that are not blank. -/
theorem mem_words {t w : Text} (h : w ∈ words t) :
    w ≠ [] ∧ ∀ c ∈ w, isBlank c = false ∧ c ∈ t := by
  obtain ⟨hsplit, hne⟩ := List.mem_filter.mp h
  exact ⟨by simpa using hne, mem_splitOnP hsplit⟩

/-- What is joined is made of the parts and of what stands between them. -/
theorem mem_intercalate {sep : Text} {parts : List Text} {c : Char}
    (h : c ∈ List.intercalate sep parts) : c ∈ sep ∨ ∃ t ∈ parts, c ∈ t := by
  induction parts with
  | nil =>
    rw [List.intercalate_nil] at h
    cases h
  | cons t rest ih =>
    cases rest with
    | nil =>
      rw [List.intercalate_singleton] at h
      exact .inr ⟨t, List.mem_cons_self, h⟩
    | cons u rest =>
      rw [List.intercalate_cons_cons, List.mem_append, List.mem_append] at h
      rcases h with (h | h) | h
      · exact .inr ⟨t, List.mem_cons_self, h⟩
      · exact .inl h
      · rcases ih h with h | ⟨v, hv, h⟩
        · exact .inl h
        · exact .inr ⟨v, List.mem_cons_of_mem t hv, h⟩

end BuildStep.Text
