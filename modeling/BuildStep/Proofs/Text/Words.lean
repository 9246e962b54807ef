import BuildStep.Proofs.Text.Cutting

/-!
# The words of a text

The words of a text are its maximal runs of characters that are not blank.  A text with given words
can have any blanks around them, and must have some between them; no text has its words in two ways.

## Key results

- `words_eq_iff`: the words are the maximal runs
- `Runs.exists_mem`: whatever is not blank is part of a word
- `Runs.exists_blanks`, `runs_pair`: texts of two words
-/

namespace BuildStep.Text

/-- The maximal runs of characters that are not blank, in order.  There may be blanks before each of
them, and behind it the text ends or goes on with a blank. -/
inductive Runs : Text → List Text → Prop
  | blanks {t : Text} : (∀ c ∈ t, isBlank c = true) → Runs t []
  | word {before w rest : Text} {ws : List Text} : (∀ c ∈ before, isBlank c = true) → w ≠ [] →
    (∀ c ∈ w, isBlank c = false) → (∀ c, rest.head? = some c → isBlank c = true) → Runs rest ws →
    Runs (before ++ (w ++ rest)) (w :: ws)

/-! ## Words and blanks -/

theorem words_append_cons {c : Char} (hc : isBlank c = true) (before after : Text) :
    words (before ++ c :: after) = words before ++ words after := by
  rw [words, List.splitOnP_append_cons before after hc, List.filter_append]
  rfl

theorem words_cons {c : Char} (hc : isBlank c = true) (t : Text) : words (c :: t) = words t :=
  words_append_cons hc [] t

/-- Blanks before a text add no words to it. -/
theorem words_blanks_append {blanks : Text} (h : ∀ c ∈ blanks, isBlank c = true) (t : Text) :
    words (blanks ++ t) = words t := by
  induction blanks with
  | nil => rfl
  | cons c blanks ih =>
    have hrest := ih fun x hx => h x (List.mem_cons_of_mem c hx)
    rw [List.cons_append, words_cons (h c List.mem_cons_self), hrest]

theorem words_of_blanks {t : Text} (h : ∀ c ∈ t, isBlank c = true) : words t = [] := by
  have hnil := words_blanks_append h []
  rwa [List.append_nil] at hnil

theorem words_of_word {w : Text} (hne : w ≠ []) (h : ∀ c ∈ w, isBlank c = false) :
    words w = [w] := by
  rw [words, List.splitOnP_eq_singleton h]
  simp [hne]

/-! ## Words are the maximal runs -/

theorem Runs.words_eq {t : Text} {ws : List Text} (h : Runs t ws) : words t = ws := by
  induction h with
  | blanks hblanks => exact words_of_blanks hblanks
  | @word before w rest ws hbefore hne hw hrest _ ih =>
    rw [words_blanks_append hbefore]
    cases rest with
    | nil =>
      have hnone : ws = [] := ih.symm
      rw [List.append_nil, hnone, words_of_word hne hw]
    | cons c rest =>
      -- the blank that ends the word belongs to no other
      have hc := hrest c rfl
      rw [words_cons hc] at ih
      rw [words_append_cons hc, words_of_word hne hw, ih]
      rfl

theorem exists_runs (t : Text) : ∃ ws, Runs t ws := by
  -- by the length of the text: each step takes a whole word away, not one character
  generalize hn : t.length = n
  induction n using Nat.strongRecOn generalizing t with
  | ind n ih =>
    obtain ⟨before, hbefore, ht⟩ := exists_trimStart t
    cases hstart : trimStart t with
    | nil =>
      rw [hstart, List.append_nil] at ht
      rw [ht]
      exact ⟨[], .blanks hbefore⟩
    | cons c tail =>
      -- the word goes on up to the next blank
      have hc : isBlank c = false := head_trimStart (by rw [hstart]; rfl)
      have hword : ∀ x ∈ c :: tail.takeWhile (!isBlank ·), isBlank x = false := by
        intro x hx
        rcases List.mem_cons.mp hx with rfl | hx
        · exact hc
        · simpa using List.mem_takeWhile_imp hx
      have hrest : ∀ x, (tail.dropWhile (!isBlank ·)).head? = some x → isBlank x = true := by
        intro x hx
        have hnot := List.head?_dropWhile_not (!isBlank ·) tail
        rw [hx] at hnot
        simpa using hnot
      have htail : t = before ++ ((c :: tail.takeWhile (!isBlank ·)) ++
          tail.dropWhile (!isBlank ·)) := by
        rw [List.cons_append, List.takeWhile_append_dropWhile, ← hstart]
        exact ht
      have hlength : (tail.dropWhile (!isBlank ·)).length < n := by
        have hle := (List.dropWhile_suffix (l := tail) (!isBlank ·)).length_le
        rw [hstart] at ht
        rw [← hn, ht, List.length_append, List.length_cons]
        omega
      obtain ⟨ws, hws⟩ := ih _ hlength _ rfl
      rw [htail]
      exact ⟨_, .word hbefore (List.cons_ne_nil _ _) hword hrest hws⟩

/-- The words of a text are its maximal runs. -/
theorem words_eq_iff {t : Text} {ws : List Text} : words t = ws ↔ Runs t ws := by
  constructor
  · rintro rfl
    obtain ⟨ws, hws⟩ := exists_runs t
    rw [hws.words_eq]
    exact hws
  · exact Runs.words_eq

/-! ## What words are made of -/

/-- Whatever is not blank is part of a word. -/
theorem Runs.exists_mem {t : Text} {ws : List Text} (h : Runs t ws) {c : Char} (hc : c ∈ t)
    (hplain : isBlank c = false) : ∃ w ∈ ws, c ∈ w := by
  have hnot : ∀ {blanks : Text}, (∀ x ∈ blanks, isBlank x = true) → c ∉ blanks := by
    intro blanks hblanks hmem
    rw [hblanks c hmem] at hplain
    cases hplain
  -- a run is blanks, a word and the rest, and the character is in one of the three
  induction h with
  | blanks hblanks => exact absurd hc (hnot hblanks)
  | @word before w rest ws hbefore _ _ _ _ ih =>
    rcases List.mem_append.mp hc with hc | hc
    · exact absurd hc (hnot hbefore)
    · rcases List.mem_append.mp hc with hc | hc
      · exact ⟨w, List.mem_cons_self, hc⟩
      · obtain ⟨v, hv, hc⟩ := ih hc
        exact ⟨v, List.mem_cons_of_mem w hv, hc⟩

/-- In a trimmed text of two words there are blanks between them, and nowhere else. -/
theorem Runs.exists_blanks {t v w : Text} (ht : IsTrimmed t) (h : Runs t [v, w]) :
    ∃ blanks, blanks ≠ [] ∧ (∀ c ∈ blanks, isBlank c = true) ∧ t = v ++ blanks ++ w := by
  cases h with
  | @word before _ rest _ hbefore _ _ hrest htail =>
    cases htail with
    | @word blanks _ last _ hblanks hne hw _ hlast =>
      cases hlast with
      | blanks hlast =>
        -- blanks at either end would be an end of the text
        have hfirst : before = [] := by
          cases before with
          | nil => rfl
          | cons c before =>
            have hc := hbefore c List.mem_cons_self
            rw [ht.head c rfl] at hc
            cases hc
        have hend : last = [] := by
          by_contra hsome
          obtain ⟨c, hc⟩ := Option.ne_none_iff_exists'.mp (mt List.getLast?_eq_none_iff.mp hsome)
          have hblank := hlast c (List.mem_of_getLast? hc)
          rw [ht.last c (by simp [List.getLast?_append, hc])] at hblank
          cases hblank
        subst hfirst hend
        refine ⟨blanks, ?_, hblanks, by simp⟩
        -- without blanks in between the first word would go on
        rintro rfl
        obtain ⟨c, w, rfl⟩ := List.exists_cons_of_ne_nil hne
        have hc := hrest c rfl
        rw [hw c List.mem_cons_self] at hc
        cases hc

/-- Two words with blanks between them are the words of the text. -/
theorem runs_pair {v w blanks : Text} (hv : v ≠ []) (hvplain : ∀ c ∈ v, isBlank c = false)
    (hw : w ≠ []) (hwplain : ∀ c ∈ w, isBlank c = false) (hne : blanks ≠ [])
    (hblanks : ∀ c ∈ blanks, isBlank c = true) : Runs (v ++ blanks ++ w) [v, w] := by
  have hend : Runs (blanks ++ (w ++ [])) [w] :=
    .word hblanks hw hwplain (fun _ hc => by cases hc) (.blanks fun _ hc => by cases hc)
  have hhead : ∀ c, (blanks ++ (w ++ [])).head? = some c → isBlank c = true := by
    intro c hc
    rw [List.head?_append_of_ne_nil _ hne] at hc
    exact hblanks c (List.mem_of_head? hc)
  have hall : Runs ([] ++ (v ++ (blanks ++ (w ++ [])))) [v, w] :=
    .word (fun _ hc => by cases hc) hv hvplain hhead hend
  rwa [List.append_nil, List.nil_append, ← List.append_assoc] at hall

end BuildStep.Text
