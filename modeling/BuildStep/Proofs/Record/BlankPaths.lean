import BuildStep.Proofs.Record.BindGrammar
import BuildStep.Proofs.Record.Positions
import BuildStep.Proofs.Record.RoundTrip

/-!
# Paths of blanks

A path that has nothing in it but blanks is as good as none, and a record of a bind mount should not be
read if one of its paths is like that.  What is tested is whether a field is empty, and what is trimmed
is the whole record and not its fields.  That is enough for the field at the front, for the field at the
end, and for words, which have no blanks at all.  It is not enough for a path in the container that has
colons on both sides: a mode behind it takes the place at the end.

## Key results

- `isVisible_hostPath_of_written`: a host path is never blank
- `isVisible_containerPath_iff`: a path in the container is blank in one form of record, and in no other
- `visible_paths_of_parse`: what that means for one record and for a batch
-/

namespace BuildStep

/-- There is something in the text that is not blank. -/
def Text.IsVisible (t : Text) : Prop :=
  ∃ c ∈ t, Text.isBlank c = false

instance (t : Text) : Decidable (Text.IsVisible t) :=
  decidable_of_iff (t.any (!Text.isBlank ·) = true) (by simp [Text.IsVisible])

theorem Text.not_isVisible_iff {t : Text} :
    ¬Text.IsVisible t ↔ ∀ c ∈ t, Text.isBlank c = true := by
  simp [Text.IsVisible]

theorem Text.isVisible_of_head? {t : Text} (hne : t ≠ [])
    (h : ∀ c, t.head? = some c → Text.isBlank c = false) : Text.IsVisible t := by
  cases t with
  | nil => exact absurd rfl hne
  | cons c rest => exact ⟨c, List.mem_cons_self, h c rfl⟩

theorem Text.isVisible_of_getLast? {t : Text} (hne : t ≠ [])
    (h : ∀ c, t.getLast? = some c → Text.isBlank c = false) : Text.IsVisible t :=
  ⟨t.getLast hne, List.getLast_mem hne, h _ (List.getLast?_eq_some_getLast hne)⟩

namespace Bind

/-- The record has blanks alone between a host path and a mode. -/
def HasBlankTarget (t : Text) : Prop :=
  ∃ host blanks mode token, host ≠ [] ∧ ':' ∉ host ∧ blanks ≠ [] ∧
    (∀ c ∈ blanks, Text.isBlank c = true) ∧ AccessMode.token? mode = some token ∧
    t = host ++ ':' :: blanks ++ ':' :: token

/-- There are two or three fields, and one of the paths is blank. -/
def LacksVisiblePath (fields : List Text) : Prop :=
  ∃ host container rest, fields = host :: container :: rest ∧ rest.length ≤ 1 ∧
    (¬Text.IsVisible host ∨ ¬Text.IsVisible container)

variable {t : Text} {b : Bind}

/-- Such a record is read, and the blanks are the path in the container. -/
theorem hasBlankTarget_iff :
    HasBlankTarget t ↔ ∃ b : Bind, b.Valid ∧ b.mode ≠ .unspecified ∧
      ¬Text.IsVisible b.containerPath ∧ t = b.render := by
  constructor
  · rintro ⟨host, blanks, mode, token, hhost, hcolon, hne, hblanks, htoken, rfl⟩
    have hwhole : ':' ∉ blanks := fun hmem => absurd (hblanks ':' hmem) (by decide)
    refine ⟨⟨host, blanks, mode⟩, ⟨hhost, hne, hcolon, hwhole⟩, ?_,
      Text.not_isVisible_iff.mpr hblanks, ?_⟩
    · rintro rfl
      cases htoken
    · simp [render, htoken]
  · rintro ⟨⟨host, container, mode⟩, hvalid, hmode, hblank, rfl⟩
    cases htoken : mode.token? with
    | none =>
      cases mode with
      | unspecified => exact absurd rfl hmode
      | readOnly => cases htoken
      | readWrite => cases htoken
    | some token =>
      refine ⟨host, container, mode, token, hvalid.hostPath, hvalid.hostWhole, hvalid.containerPath,
        Text.not_isVisible_iff.mp hblank, htoken, ?_⟩
      simp [render, htoken]

theorem isVisible_of_mem_words {f : Text} (h : Text.Runs t b.fields) (hf : f ∈ b.fields) :
    Text.IsVisible f := by
  obtain ⟨hne, hchars⟩ := mem_fields_of_words h.words_eq f hf
  exact Text.isVisible_of_head? hne fun c hc => (hchars c (List.mem_of_head? hc)).1

/-- The host path is at the front of the record, or a word. -/
theorem isVisible_hostPath_of_written (ht : Text.IsTrimmed t) (h : Written b t) :
    Text.IsVisible b.hostPath := by
  cases h with
  | colons hvalid =>
    rw [← render_eq, isTrimmed_render_iff hvalid] at ht
    exact Text.isVisible_of_head? ht.hostPath.1 ht.head
  | words _ hruns => exact isVisible_of_mem_words hruns (by simp [fields])

/-- The path in the container is at the end of the record, or a word, or there is a mode behind it. -/
theorem isVisible_containerPath_iff (ht : Text.IsTrimmed t) (h : Written b t) :
    Text.IsVisible b.containerPath ↔ ¬HasBlankTarget t := by
  rw [iff_not_comm, hasBlankTarget_iff]
  constructor
  · -- the record is read in one way only
    rintro ⟨b', hvalid', -, hblank, rfl⟩
    have hsame : read b'.render = .ok b := read_eq_ok_iff.mpr h
    rw [read_render hvalid'] at hsame
    cases hsame
    exact hblank
  · intro hblank
    cases h with
    | colons hvalid =>
      refine ⟨b, hvalid, fun hmode => hblank ?_, hblank, (render_eq b).symm⟩
      rw [← render_eq, isTrimmed_render_iff hvalid] at ht
      exact Text.isVisible_of_getLast? ht.containerPath.1 (ht.last hmode)
    | words _ hruns => exact absurd (isVisible_of_mem_words hruns (by simp [fields])) hblank

/-- A record with a blank path is read in this one form. -/
theorem exists_written_iff_of_lacksVisiblePath (ht : Text.IsTrimmed t)
    (hlacks : LacksVisiblePath (t.splitOn ':')) : (∃ b, Written b t) ↔ HasBlankTarget t := by
  constructor
  · rintro ⟨b, h⟩
    have hhost := isVisible_hostPath_of_written ht h
    by_contra hnot
    have hcontainer := (isVisible_containerPath_iff ht h).mpr hnot
    obtain ⟨host, container, rest, hsplit, -, hblank⟩ := hlacks
    cases h with
    | colons hvalid =>
      rw [List.splitOn_intercalate ':' hvalid.not_mem_fields (List.cons_ne_nil _ _)] at hsplit
      cases hsplit
      exact hblank.elim (· hhost) (· hcontainer)
    | words hcolon _ =>
      -- without colons there is one field alone
      rw [List.splitOn_eq_singleton hcolon] at hsplit
      cases hsplit
  · intro h
    obtain ⟨b, hvalid, -, -, rfl⟩ := hasBlankTarget_iff.mp h
    exact ⟨b, read_eq_ok_iff.mp (read_render hvalid)⟩

/-! ## One record, and batches -/

/-- What is wrong with a record is wrong with the batch that it is in. -/
theorem exists_parseAll_eq_error {batch line : Text} (hline : line ∈ batch.splitOn '\n')
    (hne : Text.trim line ≠ []) (hnone : ¬∃ b, Written b (Text.trim line)) :
    ∃ e, parseAll batch = .error e := by
  cases hread : parseAll batch with
  | error e => exact ⟨e, rfl⟩
  | ok binds =>
    obtain ⟨b, hb⟩ := Record.exists_readAll_iff.mp ⟨binds, hread⟩ line hline hne
    exact absurd ⟨b, read_eq_ok_iff.mp hb⟩ hnone

/-- The paths that `Bind.parse` and `Bind.parseAll` return are visible, but for the path in the
container of a record that `HasBlankTarget`.  Any other record that `LacksVisiblePath` is refused,
alone and in a batch. -/
theorem visible_paths_of_parse (t batch : Text) :
    (∀ b, parse t = .ok b → Text.IsVisible b.hostPath ∧
      (Text.IsVisible b.containerPath ↔ ¬HasBlankTarget (Text.trim t))) ∧
    (LacksVisiblePath ((Text.trim t).splitOn ':') →
      ((∃ b, parse t = .ok b) ↔ HasBlankTarget (Text.trim t))) ∧
    (∀ binds, parseAll batch = .ok binds →
      List.Forall₂ (fun line b => Text.IsVisible b.hostPath ∧
          (Text.IsVisible b.containerPath ↔ ¬HasBlankTarget (Text.trim line)))
        ((batch.splitOn '\n').filter (Text.trim · ≠ [])) binds) ∧
    (∀ line ∈ batch.splitOn '\n', LacksVisiblePath ((Text.trim line).splitOn ':') →
      ¬HasBlankTarget (Text.trim line) → ∃ e, parseAll batch = .error e) := by
  have hpaths {t : Text} {b : Bind} (h : Written b (Text.trim t)) :
      Text.IsVisible b.hostPath ∧
        (Text.IsVisible b.containerPath ↔ ¬HasBlankTarget (Text.trim t)) :=
    ⟨isVisible_hostPath_of_written (Text.isTrimmed_trim t) h,
      isVisible_containerPath_iff (Text.isTrimmed_trim t) h⟩
  have hlacking {t : Text} (h : LacksVisiblePath ((Text.trim t).splitOn ':')) :
      (∃ b, Written b (Text.trim t)) ↔ HasBlankTarget (Text.trim t) :=
    exists_written_iff_of_lacksVisiblePath (Text.isTrimmed_trim t) h
  refine ⟨fun b h => hpaths (parse_eq_ok_iff.mp h), fun h => ?_, fun binds h => ?_,
    fun line hline hlacks hnot => ?_⟩
  · rw [← hlacking h]
    exact exists_congr fun b => parse_eq_ok_iff
  · have hall := Record.readAll_numbered_eq_ok_iff.mp h
    exact hall.imp fun line b hread => hpaths (read_eq_ok_iff.mp hread)
  · refine exists_parseAll_eq_error hline (fun hempty => ?_) (mt (hlacking hlacks).mp hnot)
    -- a blank line has one field alone
    obtain ⟨host, container, rest, hsplit, -⟩ := hlacks
    rw [hempty] at hsplit
    cases hsplit

/-- Blanks beside a path are part of it and leave it visible.  A path of nothing else is read before a
mode, and refused at the end of a record. -/
theorem visible_paths_of_parse_of_blanks :
    (parse "/a : /b :ro".toList = .ok ⟨"/a ".toList, " /b ".toList, .readOnly⟩ ∧
      ¬HasBlankTarget "/a : /b :ro".toList) ∧
    (parseAll "/a: :ro".toList = .ok [⟨"/a".toList, " ".toList, .readOnly⟩] ∧
      HasBlankTarget "/a: :ro".toList) ∧
    (LacksVisiblePath ("/a:".toList.splitOn ':') ∧ ¬HasBlankTarget "/a:".toList ∧
      ∃ e, parseAll "/c:/d\n/a: ".toList = .error e) := by
  have hread : parse "/a : /b :ro".toList = .ok ⟨"/a ".toList, " /b ".toList, .readOnly⟩ := by rfl
  have hbatch : parseAll "/a: :ro".toList = .ok [⟨"/a".toList, " ".toList, .readOnly⟩] := by rfl
  have hlacks : LacksVisiblePath ("/a:".toList.splitOn ':') :=
    ⟨"/a".toList, [], [], rfl, by decide, .inr (by decide)⟩
  obtain ⟨hparse, -, hall, -⟩ := visible_paths_of_parse "/a : /b :ro".toList "/a: :ro".toList
  obtain ⟨-, hlacking, -, herror⟩ := visible_paths_of_parse "/a:".toList "/c:/d\n/a: ".toList
  have hrefused : ¬HasBlankTarget "/a:".toList := by
    intro hblank
    obtain ⟨b, hb⟩ := (hlacking hlacks).mpr hblank
    cases hb
  refine ⟨⟨hread, (hparse _ hread).2.mp (by decide)⟩, ⟨hbatch, ?_⟩, hlacks, hrefused,
    herror "/a: ".toList (by decide) hlacks hrefused⟩
  have hlines : List.Forall₂ _ ["/a: :ro".toList] _ := hall _ hbatch
  obtain ⟨⟨-, hcontainer⟩, -⟩ := List.forall₂_cons.mp hlines
  by_contra hnot
  exact absurd (hcontainer.mpr hnot) (by decide)

/-- A path of one blank is read where a mode is behind it, by itself and in a batch, but not where it
is at the end of the record. -/
theorem exists_blank_containerPath :
    parse "/a: :ro".toList = .ok ⟨"/a".toList, " ".toList, .readOnly⟩ ∧
      parseAll "/a: :ro".toList = .ok [⟨"/a".toList, " ".toList, .readOnly⟩] ∧
      ¬Text.IsVisible " ".toList ∧
      parse "/a: ".toList = .error ⟨.bind, 1, "/a:".toList, .empty .containerPath⟩ := by
  exact ⟨rfl, rfl, by decide, rfl⟩

end Bind

end BuildStep
