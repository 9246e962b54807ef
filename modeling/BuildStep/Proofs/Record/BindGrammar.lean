import BuildStep.Proofs.Record.Fields
import BuildStep.Proofs.Text.Words

/-!
# What is a bind mount

A record of a bind mount has its fields between colons, or it has no colon at all and its fields are
its words.  Paths may have blanks in them only in the first form, and no path has a colon in it, so a
text has one of the two forms at most.  What is neither is an error; it is said to lack a path only if
colons show the place where the path should be.

## Key results

- `read_eq_ok_iff`: the two forms, and nothing else, are accepted
- `exists_readBlanks_eq_error`, `exclusive_readings`: blanks do not count next to a colon
- `read_eq_empty_iff`: when a path is said to be lacking
- `parse_iff_colons_or_words`: what is accepted, as what, and how the rest is refused
-/

namespace BuildStep

namespace Bind

/-- The two ways to write a bind mount in a record: its fields with colons in between, or a text
without colons that has the fields for its words. -/
inductive Written (b : Bind) : Text → Prop
  | colons : b.Valid → Written b (List.intercalate [':'] b.fields)
  | words {t : Text} : ':' ∉ t → Text.Runs t b.fields → Written b t

/-- There are two or three fields, and one of the paths is empty. -/
def LacksPath (fields : List Text) : Prop :=
  ∃ host container rest, fields = host :: container :: rest ∧ rest.length ≤ 1 ∧
    (host = [] ∨ container = [])

/-! ## What is accepted -/

/-- Words of a text without colons can stand in a record. -/
theorem valid_of_runs {t : Text} {b : Bind} (hcolon : ':' ∉ t) (h : Text.Runs t b.fields) :
    b.Valid := by
  have hfield : ∀ f ∈ b.fields, f ≠ [] ∧ ':' ∉ f := by
    intro f hf
    obtain ⟨hne, hchars⟩ := mem_fields_of_words h.words_eq f hf
    exact ⟨hne, fun hc => hcolon (hchars ':' hc).2⟩
  obtain ⟨hhost, hhostWhole⟩ := hfield b.hostPath (by simp [fields])
  obtain ⟨hcontainer, hcontainerWhole⟩ := hfield b.containerPath (by simp [fields])
  exact ⟨hhost, hcontainer, hhostWhole, hcontainerWhole⟩

/-- Blanks between fields do not count in a text with colons: a colon would be part of a field. -/
theorem exists_readBlanks_eq_error {t : Text} (hcolon : ':' ∈ t) :
    ∃ fault, readBlanks t = .error fault := by
  cases hread : readBlanks t with
  | error fault => exact ⟨fault, rfl⟩
  | ok b =>
    obtain ⟨hvalid, hwords⟩ := readBlanks_eq_ok_iff.mp hread
    obtain ⟨f, hf, hmem⟩ := (Text.words_eq_iff.mp hwords).exists_mem hcolon (by decide)
    exact absurd hmem (hvalid.not_mem_fields f hf)

theorem colon_mem_render (b : Bind) : ':' ∈ b.render := by
  simp [render]

theorem exclusive_readings (t : Text) : Exclusive (readColons t) (readBlanks t) := by
  rintro ⟨b, b', hcolons, hblanks⟩
  -- what is read with colons has one, and a colon is in no word that could be a field
  obtain ⟨-, rfl⟩ := readColons_eq_ok_iff.mp hcolons
  obtain ⟨fault, hfault⟩ := exists_readBlanks_eq_error (colon_mem_render b)
  rw [hblanks] at hfault
  cases hfault

/-- The two forms are accepted, and nothing else is. -/
theorem read_eq_ok_iff {t : Text} {b : Bind} : read t = .ok b ↔ Written b t := by
  rw [read, (exclusive_readings t).firstReading_eq_ok_iff]
  constructor
  · rintro (h | h)
    · obtain ⟨hvalid, rfl⟩ := readColons_eq_ok_iff.mp h
      rw [render_eq]
      exact .colons hvalid
    · obtain ⟨-, hwords⟩ := readBlanks_eq_ok_iff.mp h
      refine .words ?_ (Text.words_eq_iff.mp hwords)
      intro hcolon
      obtain ⟨fault, hfault⟩ := exists_readBlanks_eq_error hcolon
      rw [h] at hfault
      cases hfault
  · intro h
    cases h with
    | colons hvalid => exact .inl (readColons_eq_ok_iff.mpr ⟨hvalid, (render_eq b).symm⟩)
    | words hcolon hruns =>
      exact .inr (readBlanks_eq_ok_iff.mpr ⟨valid_of_runs hcolon hruns, hruns.words_eq⟩)

theorem Written.ne_nil {t : Text} {b : Bind} (h : Written b t) : t ≠ [] := by
  cases h with
  | colons =>
    rw [← render_eq]
    simp [render]
  | words _ hruns =>
    rintro rfl
    cases hruns.words_eq

theorem parse_eq_ok_iff {t : Text} {b : Bind} : parse t = .ok b ↔ Written b (Text.trim t) := by
  -- a blank text needs no care: nothing is written as an empty one
  rw [← read_eq_ok_iff, parse, Record.readSingle_eq_ok_iff]
  exact and_iff_right_of_imp fun h => (read_eq_ok_iff.mp h).ne_nil

/-! ## How the rest is refused -/

theorem ofParts_eq_empty_iff {host container : Text} {mode : Option Text} :
    (∃ field, ofParts host container mode = .error (.empty field)) ↔ host = [] ∨ container = [] := by
  -- the paths are looked at first, and no later fault is about an empty field
  have hmode : ∀ field, (readMode mode).map (fun m => (⟨host, container, m⟩ : Bind)) ≠
      .error (.empty field) := by
    intro field h
    unfold readMode at h
    split at h
    · cases h
    · split at h <;> cases h
  unfold ofParts
  split_ifs with hhost hcontainer hhostColon hcontainerColon <;> simp_all

theorem ofFields_eq_empty_iff {d : Delimiter} {fs : List Text} :
    (∃ field, ofFields d fs = .error (.empty field)) ↔ LacksPath fs := by
  unfold ofFields
  split
  · rename_i host container
    rw [ofParts_eq_empty_iff]
    simp [LacksPath]
  · rename_i host container mode
    rw [ofParts_eq_empty_iff]
    simp [LacksPath]
  · rename_i htwo hthree
    constructor
    · rintro ⟨field, h⟩
      cases h
    · rintro ⟨host, container, rest, rfl, hrest, -⟩
      match rest, hrest with
      | [], _ => exact absurd rfl (htwo host container)
      | [mode], _ => exact absurd rfl (hthree host container mode)

/-- A path is said to be lacking if colons show where it should be. -/
theorem read_eq_empty_iff {t : Text} :
    (∃ field, read t = .error (.empty field)) ↔ LacksPath (t.splitOn ':') := by
  constructor
  · rintro ⟨field, h⟩
    obtain ⟨first, second, hfirst, hsecond, hfault⟩ := firstReading_eq_error h
    rcases hfault with rfl | rfl
    · exact ofFields_eq_empty_iff.mp ⟨field, hfirst⟩
    · -- no word is empty
      obtain ⟨host, container, rest, hwords, -, hempty⟩ := ofFields_eq_empty_iff.mp ⟨field, hsecond⟩
      have hne : ∀ w ∈ host :: container :: rest, w ≠ [] := by
        intro w hw
        rw [← hwords] at hw
        exact (Text.mem_words hw).1
      simp_all
  · intro h
    obtain ⟨field, hcolons⟩ := (ofFields_eq_empty_iff (d := .colon)).mpr h
    have hcolon : ':' ∈ t := by
      by_contra hnone
      obtain ⟨host, container, rest, hsplit, -⟩ := h
      rw [List.splitOn_eq_singleton hnone] at hsplit
      cases hsplit
    obtain ⟨fault, hblanks⟩ := exists_readBlanks_eq_error hcolon
    refine ⟨field, ?_⟩
    rw [read, hblanks, readColons, hcolons]
    rfl

/-- `Bind.parse` reads the texts that are `Written` but for blanks around them, and no others.  It
fails with `Fault.empty` just where the fields between colons `LacksPath`. -/
theorem parse_iff_colons_or_words (t : Text) :
    (∀ b, parse t = .ok b ↔ Written b (Text.trim t)) ∧
      (':' ∈ Text.trim t → ∃ fault, readBlanks (Text.trim t) = .error fault) ∧
      (Text.trim t ≠ [] → (∀ b, ¬Written b (Text.trim t)) →
        ∃ fault, parse t = .error ⟨.bind, 1, Text.trim t, fault⟩ ∧
          ((∃ field, fault = .empty field) ↔ LacksPath ((Text.trim t).splitOn ':'))) := by
  refine ⟨fun b => parse_eq_ok_iff, exists_readBlanks_eq_error, ?_⟩
  intro hne hnone
  cases hfault : read (Text.trim t) with
  | ok b => exact absurd (read_eq_ok_iff.mp hfault) (hnone b)
  | error fault =>
    refine ⟨fault, (Record.readSingle_eq_error_iff hne).mpr hfault, ?_⟩
    rw [← read_eq_empty_iff, hfault]
    simp

/-- Where there is a colon, a blank is part of a path, and what looks like a mode may be one. -/
example : parse "/a /b:ro".toList = .ok ⟨"/a /b".toList, "ro".toList, .unspecified⟩ := by
  rfl

end Bind

end BuildStep
