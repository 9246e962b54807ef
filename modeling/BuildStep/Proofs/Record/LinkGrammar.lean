import BuildStep.Proofs.Record.Fields
import BuildStep.Proofs.Record.Positions
import BuildStep.Proofs.Text.Words

/-!
# What is a link

A link is two names with a delimiter between them: a colon, which may have blanks on both sides, or
blanks alone.  In a batch a comma ends a link, so a name has neither of them in it.

## Key results

- `exclusive_readings`: no text is read with a colon and with blanks
- `read_eq_ok_iff`: what a record says
- `standsFor_iff`: what an item of a batch says
- `parseAll_iff_items`: which batches are read, as what, and where the others fail
-/

namespace BuildStep

namespace Link

/-- What may stand between two names. -/
inductive IsDelimiter : Text → Prop
  | colon {before after : Text} : (∀ c ∈ before, Text.isBlank c = true) →
    (∀ c ∈ after, Text.isBlank c = true) → IsDelimiter (before ++ ':' :: after)
  | blanks {blanks : Text} : blanks ≠ [] → (∀ c ∈ blanks, Text.isBlank c = true) →
    IsDelimiter blanks

/-- The text is the two names with a delimiter between them. -/
def Written (l : Link) (t : Text) : Prop :=
  ∃ delimiter, IsDelimiter delimiter ∧ t = l.name ++ delimiter ++ l.knownAs

/-- A name in a batch of links. -/
structure IsName (t : Text) : Prop where
  nonempty : t ≠ []
  plain : ∀ c ∈ t, c ≠ ':' ∧ c ≠ ',' ∧ Text.isBlank c = false

/-- The item of a batch is, but for blanks around it, the two names with a delimiter between them. -/
structure StandsFor (item : Text) (l : Link) : Prop where
  name : IsName l.name
  knownAs : IsName l.knownAs
  written : l.Written (Text.trim item)

/-! ## Records -/

/-- In a record with a colon there may be blanks on both sides of it. -/
theorem readColons_eq_ok_iff {t : Text} (ht : Text.IsTrimmed t) {l : Link} :
    readColons t = .ok l ↔ l.Valid ∧ ∃ before after, (∀ c ∈ before, Text.isBlank c = true) ∧
      (∀ c ∈ after, Text.isBlank c = true) ∧
      t = l.name ++ (before ++ ':' :: after) ++ l.knownAs := by
  rw [readColons, ofFields_eq_ok_iff]
  refine and_congr_right fun hl => ?_
  constructor
  · intro hfields
    obtain ⟨front, rest, hsplit, hfront, hrest⟩ := List.map_eq_cons_iff.mp hfields
    obtain ⟨back, rest, rfl, hback, hnil⟩ := List.map_eq_cons_iff.mp hrest
    rw [List.map_eq_nil_iff] at hnil
    subst hnil
    -- the ends of the record are not blank, so all blanks are around the colon
    have htext : t = front ++ ':' :: back := by
      have hjoin : List.intercalate [':'] (t.splitOn ':') = t := List.intercalate_splitOn ':'
      rw [hsplit] at hjoin
      simpa [List.intercalate_cons_cons] using hjoin.symm
    rw [htext] at ht
    obtain ⟨before, hbefore, hname⟩ := ht.exists_front
    obtain ⟨after, hafter, hknownAs⟩ := ht.exists_rest
    refine ⟨before, after, hbefore, hafter, ?_⟩
    rw [htext, hname, hknownAs, hfront, hback]
    simp
  · rintro ⟨before, after, hbefore, hafter, rfl⟩
    have hname : ':' ∉ l.name := fun h => (hl.plain (.inl h)).1 rfl
    have hknownAs : ':' ∉ l.knownAs := fun h => (hl.plain (.inr h)).1 rfl
    have hnot : ∀ {blanks : Text}, (∀ c ∈ blanks, Text.isBlank c = true) → ':' ∉ blanks := by
      intro blanks hblanks hcolon
      exact absurd (hblanks ':' hcolon) (by decide)
    have htext : l.name ++ (before ++ ':' :: after) ++ l.knownAs =
        (l.name ++ before) ++ ':' :: (after ++ l.knownAs) := by simp
    have hfront : ':' ∉ l.name ++ before := by simp [hname, hnot hbefore]
    have hback : ':' ∉ after ++ l.knownAs := by simp [hknownAs, hnot hafter]
    rw [htext, List.splitOn_append_cons_self_of_not_mem hfront, List.splitOn_eq_singleton hback,
      List.map_cons, List.map_cons, List.map_nil, Text.trim_append_blanks _ hbefore,
      Text.trim_blanks_append hafter, hl.trim_eq.1, hl.trim_eq.2]

/-- With blanks it is the words that count, and a word has no blanks to trim. -/
theorem readBlanks_eq_ok_iff_words {t : Text} {l : Link} :
    readBlanks t = .ok l ↔ l.Valid ∧ Text.words t = [l.name, l.knownAs] := by
  have htrim : (Text.words t).map Text.trim = Text.words t := by
    have hself : ∀ w ∈ Text.words t, Text.trim w = w := fun w hw =>
      Text.trim_eq_self (Text.isTrimmed_of_forall fun c hc => ((Text.mem_words hw).2 c hc).1)
    rw [List.map_congr_left hself, List.map_id']
  rw [readBlanks, ofFields_eq_ok_iff, htrim]

/-- In one without there are blanks between the names. -/
theorem readBlanks_eq_ok_iff {t : Text} (ht : Text.IsTrimmed t) {l : Link} :
    readBlanks t = .ok l ↔ l.Valid ∧ ∃ blanks, blanks ≠ [] ∧
      (∀ c ∈ blanks, Text.isBlank c = true) ∧ t = l.name ++ blanks ++ l.knownAs := by
  rw [readBlanks_eq_ok_iff_words, Text.words_eq_iff]
  refine and_congr_right fun hl => ?_
  constructor
  · exact Text.Runs.exists_blanks ht
  · rintro ⟨blanks, hne, hblanks, rfl⟩
    exact Text.runs_pair hl.name (fun c hc => (hl.plain (.inl hc)).2) hl.knownAs
      (fun c hc => (hl.plain (.inr hc)).2) hne hblanks

/-- A text without a colon is one field to a reader that goes by colons. -/
theorem colon_mem_of_readColons {t : Text} {l : Link} (h : readColons t = .ok l) : ':' ∈ t := by
  by_contra hcolon
  rw [readColons, List.splitOn_eq_singleton hcolon] at h
  cases h

theorem exclusive_readings (t : Text) : Exclusive (readColons t) (readBlanks t) := by
  rintro ⟨l, l', hcolons, hblanks⟩
  have hcolon := colon_mem_of_readColons hcolons
  obtain ⟨hl, hwords⟩ := readBlanks_eq_ok_iff_words.mp hblanks
  -- the colon is part of a word, and so of a name
  obtain ⟨w, hw, hmem⟩ := (Text.words_eq_iff.mp hwords).exists_mem hcolon (by decide)
  have hname : ':' ∈ l'.name ∨ ':' ∈ l'.knownAs := by
    simp only [List.mem_cons, List.not_mem_nil, or_false] at hw
    rcases hw with rfl | rfl
    · exact .inl hmem
    · exact .inr hmem
  exact (hl.plain hname).1 rfl

/-- A record is read if it is two names with a delimiter between them. -/
theorem read_eq_ok_iff {t : Text} (ht : Text.IsTrimmed t) {l : Link} :
    read t = .ok l ↔ l.Valid ∧ l.Written t := by
  rw [read, (exclusive_readings t).firstReading_eq_ok_iff, readColons_eq_ok_iff ht,
    readBlanks_eq_ok_iff ht]
  constructor
  · rintro (⟨hl, before, after, hbefore, hafter, htext⟩ | ⟨hl, blanks, hne, hblanks, htext⟩)
    · exact ⟨hl, _, .colon hbefore hafter, htext⟩
    · exact ⟨hl, blanks, .blanks hne hblanks, htext⟩
  · rintro ⟨hl, delimiter, hdelimiter, htext⟩
    cases hdelimiter with
    | colon hbefore hafter => exact .inl ⟨hl, _, _, hbefore, hafter, htext⟩
    | blanks hne hblanks => exact .inr ⟨hl, delimiter, hne, hblanks, htext⟩

/-! ## Batches -/

theorem isName_iff {t : Text} : IsName t ↔ t ≠ [] ∧ hasDelimiter t = false ∧ ',' ∉ t := by
  rw [hasDelimiter_eq_false_iff]
  constructor
  · rintro ⟨hne, hplain⟩
    exact ⟨hne, ⟨fun h => (hplain _ h).1 rfl, fun c hc => (hplain c hc).2.2⟩,
      fun h => (hplain _ h).2.1 rfl⟩
  · rintro ⟨hne, ⟨hcolon, hblank⟩, hcomma⟩
    refine ⟨hne, fun c hc => ⟨?_, ?_, hblank c hc⟩⟩
    · rintro rfl
      exact hcolon hc
    · rintro rfl
      exact hcomma hc

/-- An item has no comma in it, and so the names in it have none. -/
theorem standsFor_iff {item : Text} (hcomma : ',' ∉ item) {l : Link} :
    StandsFor item l ↔ read (Text.trim item) = .ok l := by
  rw [read_eq_ok_iff (Text.isTrimmed_trim item)]
  constructor
  · rintro ⟨hname, hknownAs, hwritten⟩
    obtain ⟨hname, hnameWhole, -⟩ := isName_iff.mp hname
    obtain ⟨hknownAs, hknownAsWhole, -⟩ := isName_iff.mp hknownAs
    exact ⟨⟨hname, hknownAs, hnameWhole, hknownAsWhole⟩, hwritten⟩
  · rintro ⟨hl, delimiter, hdelimiter, htext⟩
    have hwhole : ∀ part : Text, (∀ c ∈ part, c ∈ Text.trim item) → ',' ∉ part :=
      fun part hpart h => hcomma (Text.mem_of_mem_trim (hpart _ h))
    have hname : ',' ∉ l.name := hwhole _ fun c hc => by
      rw [htext]
      simp [hc]
    have hknownAs : ',' ∉ l.knownAs := hwhole _ fun c hc => by
      rw [htext]
      simp [hc]
    exact ⟨isName_iff.mpr ⟨hl.name, hl.nameWhole, hname⟩,
      isName_iff.mpr ⟨hl.knownAs, hl.knownAsWhole, hknownAs⟩, delimiter, hdelimiter, htext⟩

/-- `Link.parseAll` reads a batch just if every item that is not blank `StandsFor` a link.
Otherwise it fails as `Link.parse` does on the first item that does not, with the number of that
item. -/
theorem parseAll_iff_items (batch : Text) :
    ((∃ links, parseAll batch = .ok links) ↔
      ∀ item ∈ batch.splitOn ',', Text.trim item ≠ [] → ∃ l, StandsFor item l) ∧
    (∀ links, parseAll batch = .ok links ↔
      List.Forall₂ StandsFor ((batch.splitOn ',').filter (Text.trim · ≠ [])) links) ∧
    (∀ e, parseAll batch = .error e ↔
      ∃ before item after, batch.splitOn ',' = before ++ item :: after ∧
        (∀ i ∈ before, Text.trim i ≠ [] → ∃ l, StandsFor i l) ∧
        Text.trim item ≠ [] ∧ (∀ l, ¬StandsFor item l) ∧
        ∃ fault, parse item = .error ⟨.link, 1, Text.trim item, fault⟩ ∧
          e = ⟨.link, before.length + 1, Text.trim item, fault⟩) := by
  have hstands : ∀ item ∈ batch.splitOn ',', ∀ l, StandsFor item l ↔ read (Text.trim item) = .ok l := by
    intro item hitem l
    exact standsFor_iff fun hcomma => (Text.mem_splitOn hitem _ hcomma).1 rfl
  unfold parseAll Record.items
  -- from here on only the items count, and not where they come from
  generalize batch.splitOn ',' = items at hstands
  refine ⟨?_, fun links => ?_, fun e => ?_⟩
  · rw [Record.exists_readAll_iff]
    refine forall₂_congr fun item hitem => ?_
    simp only [hstands item hitem]
  · rw [Record.readAll_numbered_eq_ok_iff]
    refine Record.forall₂_congr_of_mem fun item hitem l => ?_
    exact (hstands item (List.mem_of_mem_filter hitem) l).symm
  · rw [Record.readAll_eq_error_iff]
    constructor
    · rintro ⟨before, item, after, fault, rfl, hbefore, hitem, hfault, rfl⟩
      refine ⟨before, item, after, rfl, ?_, hitem, ?_, fault, ?_, rfl⟩
      · intro i hi hne
        obtain ⟨l, hl⟩ := hbefore i hi hne
        exact ⟨l, (hstands i (List.mem_append_left _ hi) l).mpr hl⟩
      · intro l hl
        have hread := (hstands item (by simp) l).mp hl
        rw [hfault] at hread
        cases hread
      · exact (Record.readSingle_eq_error_iff hitem).mpr hfault
    · rintro ⟨before, item, after, rfl, hbefore, hitem, -, fault, hparse, rfl⟩
      refine ⟨before, item, after, fault, rfl, ?_, hitem, ?_, rfl⟩
      · intro i hi hne
        obtain ⟨l, hl⟩ := hbefore i hi hne
        exact ⟨l, (hstands i (List.mem_append_left _ hi) l).mp hl⟩
      · exact (Record.readSingle_eq_error_iff hitem).mp hparse

/-- A blank item counts, and a name with a blank in it is no name. -/
example : parseAll "db : x, ,my web:y,lonely".toList =
    .error ⟨.link, 3, "my web:y".toList, .delimiterInName "my web".toList⟩ := by
  rfl

end Link

end BuildStep
