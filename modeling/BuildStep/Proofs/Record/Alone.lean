import BuildStep.Proofs.Record.LinkGrammar
import BuildStep.Proofs.Record.RoundTrip

/-!
# Records that stand alone

A record is read by itself or in a batch.  Who reads it by itself does not look for separators: all of
the text is the record, and a line break may be part of a path and a comma part of a name.  In a batch
they never are.  So a text may be one record to the one reader and several, or none, to the other.

The two agree on a text exactly where trimming leaves no separator in it.  A line break is itself
blank, so it may stand before or after the record; a comma may not.

## Key results

- `Record.contents_of_not_mem_trim`, `Record.length_contents_le_one_iff`: which batches have one record
- `Record.readAll_eq_singleton_iff`: such a batch is read like a record that stands alone
- `parse_agrees_with_parseAll_iff`: for bind mounts, port bindings and links
-/

namespace BuildStep

namespace Record

/-- The records of a batch, without their numbers. -/
def contents (sep : Char) (batch : Text) : List Text :=
  (numbered (batch.splitOn sep)).map Prod.snd

/-! ## How many records there are -/

theorem contents_of_not_mem {sep : Char} {t : Text} (h : sep ∉ t) :
    contents sep t = if Text.trim t = [] then [] else [Text.trim t] := by
  rw [contents, List.splitOn_eq_singleton h, numbered_singleton]
  split <;> rfl

theorem contents_append (sep : Char) (a b : Text) :
    contents sep (a ++ sep :: b) = contents sep a ++ contents sep b := by
  simp only [contents, List.splitOn_append_cons_self, map_snd_numbered_eq_filter,
    List.filter_append, List.map_append]

/-- What holds of a text without separators, and of two batches with a separator between them if it
holds of both, holds of every batch. -/
theorem batch_induction (sep : Char) {motive : Text → Prop} (whole : ∀ t, sep ∉ t → motive t)
    (joined : ∀ a b, motive a → motive b → motive (a ++ sep :: b)) (t : Text) : motive t := by
  induction h : t.length using Nat.strongRecOn generalizing t with
  | ind n ih =>
    subst h
    by_cases hsep : sep ∈ t
    · obtain ⟨a, b, rfl⟩ := List.append_of_mem hsep
      refine joined a b (ih _ ?_ a rfl) (ih _ ?_ b rfl)
      · simp
      · simp
        omega
    · exact whole t hsep

/-- A batch has no records if there is nothing in it but blanks and separators. -/
theorem contents_eq_nil_iff {sep : Char} {t : Text} :
    contents sep t = [] ↔ ∀ c ∈ t, c = sep ∨ Text.isBlank c = true := by
  induction t using batch_induction sep with
  | whole t hsep =>
    have hother : ∀ c ∈ t, (c = sep ∨ Text.isBlank c = true ↔ Text.isBlank c = true) := fun c hc =>
      or_iff_right fun h => hsep (h ▸ hc)
    rw [contents_of_not_mem hsep, forall₂_congr hother, ← Text.trim_eq_nil_iff]
    split <;> simp_all
  | joined a b iha ihb =>
    rw [contents_append, List.append_eq_nil_iff, iha, ihb, List.forall_mem_append,
      List.forall_mem_cons]
    simp

theorem contents_of_blanks {sep : Char} {t : Text} (h : ∀ c ∈ t, Text.isBlank c = true) :
    contents sep t = [] :=
  contents_eq_nil_iff.mpr fun c hc => .inr (h c hc)

/-- If trimming leaves no separator, it leaves the only record. -/
theorem contents_of_not_mem_trim {sep : Char} {t : Text} (h : sep ∉ Text.trim t) :
    contents sep t = if Text.trim t = [] then [] else [Text.trim t] := by
  induction t using batch_induction sep with
  | whole t hsep => exact contents_of_not_mem hsep
  | joined a b iha ihb =>
    -- the separator is trimmed away, and all that is on one side of it
    obtain ⟨hblank, hbefore | hafter⟩ := Text.of_not_mem_trim h
    · have hall : ∀ c ∈ a ++ [sep], Text.isBlank c = true := by simpa [or_imp, forall_and, hblank]
      have htrim : Text.trim (a ++ sep :: b) = Text.trim b := by
        rw [List.append_cons, Text.trim_blanks_append hall]
      rw [htrim] at h ⊢
      rw [contents_append, contents_of_blanks hbefore, List.nil_append, ihb h]
    · have hall : ∀ c ∈ sep :: b, Text.isBlank c = true := List.forall_mem_cons.mpr ⟨hblank, hafter⟩
      have htrim : Text.trim (a ++ sep :: b) = Text.trim a := Text.trim_append_blanks a hall
      rw [htrim] at h ⊢
      rw [contents_append, contents_of_blanks hafter, List.append_nil, iha h]

/-- If the separator is blank, there are more records wherever trimming leaves one. -/
theorem length_contents_le_one_iff {sep : Char} (hsep : Text.isBlank sep = true) {t : Text} :
    (contents sep t).length ≤ 1 ↔ sep ∉ Text.trim t := by
  constructor
  · have hblanks {t : Text} (h : contents sep t = []) : ∀ c ∈ t, Text.isBlank c = true := by
      intro c hc
      obtain rfl | hblank := contents_eq_nil_iff.mp h c hc
      · exact hsep
      · exact hblank
    intro hlength
    induction t using batch_induction sep with
    | whole t hnot => exact fun hmem => hnot (Text.mem_of_mem_trim hmem)
    | joined a b iha ihb =>
      rw [contents_append, List.length_append] at hlength
      -- one of the two has no record, so it is trimmed away
      cases ha : contents sep a with
      | nil =>
        have hall : ∀ c ∈ a ++ [sep], Text.isBlank c = true := by
          simpa [or_imp, forall_and, hsep] using hblanks ha
        rw [List.append_cons, Text.trim_blanks_append hall]
        exact ihb (by omega)
      | cons u rest =>
        rw [ha, List.length_cons] at hlength
        have hb : contents sep b = [] := List.eq_nil_of_length_eq_zero (by omega)
        have hall : ∀ c ∈ sep :: b, Text.isBlank c = true :=
          List.forall_mem_cons.mpr ⟨hsep, hblanks hb⟩
        rw [Text.trim_append_blanks a hall]
        exact iha (by rw [ha, List.length_cons]; omega)
  · intro h
    rw [contents_of_not_mem_trim h]
    split <;> simp

/-! ## Two ways to read -/

variable {α : Type} {grammar : Grammar} {reading : Text → Except Fault α} {sep : Char} {t : Text}
  {x : α}

theorem readAll_eq_singleton_iff_contents :
    readAll grammar reading (numbered (t.splitOn sep)) = .ok [x] ↔
      ∃ u, contents sep t = [u] ∧ reading u = .ok x := by
  rw [readAll_eq_ok_iff, List.forall₂_cons_right_iff]
  simp [contents, and_comm]

/-- Where trimming leaves no separator, it makes no difference whether the text is a batch. -/
theorem readAll_eq_singleton_iff_of_not_mem (h : sep ∉ Text.trim t) :
    readAll grammar reading (numbered (t.splitOn sep)) = .ok [x] ↔
      readSingle grammar reading t = .ok x := by
  rw [readAll_eq_singleton_iff_contents, contents_of_not_mem_trim h, readSingle_eq_ok_iff]
  by_cases hempty : Text.trim t = []
  · simp [hempty]
  · simp [hempty]

/-- A batch of one record has only this one reading, if the separator is blank. -/
theorem readAll_eq_singleton_iff (hsep : Text.isBlank sep = true) :
    readAll grammar reading (numbered (t.splitOn sep)) = .ok [x] ↔
      sep ∉ Text.trim t ∧ readSingle grammar reading t = .ok x := by
  constructor
  · intro h
    obtain ⟨u, hu, -⟩ := readAll_eq_singleton_iff_contents.mp h
    have hnot : sep ∉ Text.trim t := (length_contents_le_one_iff hsep).mp (by simp [hu])
    exact ⟨hnot, (readAll_eq_singleton_iff_of_not_mem hnot).mp h⟩
  · rintro ⟨hnot, h⟩
    exact (readAll_eq_singleton_iff_of_not_mem hnot).mpr h

end Record

/-! ## The three grammars -/

namespace Bind

theorem parseAll_eq_singleton_iff {t : Text} {b : Bind} :
    parseAll t = .ok [b] ↔ parse t = .ok b ∧ '\n' ∉ Text.trim t := by
  rw [and_comm]
  exact Record.readAll_eq_singleton_iff (by decide)

/-- A bind mount that was read can be written in a batch if there is no line break in its paths. -/
theorem parseAll_render_eq_singleton_iff {t : Text} {b : Bind} (h : parse t = .ok b) :
    parseAll b.render = .ok [b] ↔ '\n' ∉ b.render := by
  have hwritable : b.Writable := readsBack.writable_of_readSingle h
  rw [parseAll_eq_singleton_iff, Text.trim_eq_self (readsBack.trimmed hwritable)]
  exact and_iff_right (readsBack.readSingle_render_iff.mpr hwritable)

/-- There is none if there was none in the text. -/
theorem not_mem_render_of_parse {t : Text} {b : Bind} (h : parse t = .ok b)
    (hbreak : '\n' ∉ Text.trim t) : '\n' ∉ b.render := by
  obtain ⟨hne, hread⟩ := Record.readSingle_eq_ok_iff.mp h
  exact (isRecord_render ⟨hne, Text.isTrimmed_trim t, hbreak⟩ hread).whole

end Bind

namespace PortSpec

theorem parseAll_eq_singleton_iff {t : Text} {s : PortSpec} :
    parseAll t = .ok [s] ↔ parse t = .ok s ∧ '\n' ∉ Text.trim t := by
  rw [and_comm]
  exact Record.readAll_eq_singleton_iff (by decide)

/-- A port binding is written without line breaks, whatever it was read from. -/
theorem parseAll_render_of_parse {t : Text} {s : PortSpec} (h : parse t = .ok s) :
    parseAll s.render = .ok [s] := by
  have hwritable : s.Writable := readsBack.writable_of_readSingle h
  have hrecord := isRecord_render (writable_iff_valid.mp hwritable)
  rw [parseAll_eq_singleton_iff, Text.trim_eq_self hrecord.trimmed]
  exact ⟨readsBack.readSingle_render_iff.mpr hwritable, hrecord.whole⟩

end PortSpec

namespace Link

/-- What stands between the names of a link has no comma in it, so a comma is part of a name. -/
theorem comma_mem_render {t : Text} {l : Link} (h : l.Written t) (hcomma : ',' ∈ t) :
    ',' ∈ l.render := by
  obtain ⟨delimiter, hdelimiter, rfl⟩ := h
  have hnot : ',' ∉ delimiter := by
    have hblanks {blanks : Text} (h : ∀ c ∈ blanks, Text.isBlank c = true) : ',' ∉ blanks :=
      fun hmem => absurd (h ',' hmem) (by decide)
    cases hdelimiter with
    | colon hbefore hafter => simp [hblanks hbefore, hblanks hafter]
    | blanks _ hall => exact hblanks hall
  rw [mem_render]
  simpa [hnot] using hcomma

theorem parseAll_eq_singleton_iff {t : Text} {l : Link} (h : parse t = .ok l) :
    parseAll t = .ok [l] ↔ ',' ∉ Text.trim t := by
  constructor
  · intro hall hcomma
    -- an item has no comma in it, and so the names of a link that was read from one have none
    obtain ⟨u, hu, hread⟩ := Record.readAll_eq_singleton_iff_contents.mp hall
    have hmem : u ∈ Record.contents ',' t := by simp [hu]
    obtain ⟨record, hrecord, rfl⟩ := List.mem_map.mp hmem
    have hwhole := (isRecord_render (Record.isRecord_of_mem_numbered hrecord) hread).whole
    obtain ⟨-, halone⟩ := Record.readSingle_eq_ok_iff.mp h
    obtain ⟨-, hwritten⟩ := (read_eq_ok_iff (Text.isTrimmed_trim t)).mp halone
    exact hwhole (comma_mem_render hwritten hcomma)
  · intro hcomma
    exact (Record.readAll_eq_singleton_iff_of_not_mem hcomma).mpr h

/-- A link that was read can be written in a batch if there is no comma in its names. -/
theorem parseAll_render_eq_singleton_iff {t : Text} {l : Link} (h : parse t = .ok l) :
    parseAll l.render = .ok [l] ↔ ',' ∉ l.render := by
  have hwritable : l.Writable := readsBack.writable_of_readSingle h
  have hback : parse l.render = .ok l := readsBack.readSingle_render_iff.mpr hwritable
  rw [parseAll_eq_singleton_iff hback, Text.trim_eq_self (readsBack.trimmed hwritable)]

/-- There is none if there was none in the text. -/
theorem not_mem_render_of_parse {t : Text} {l : Link} (h : parse t = .ok l)
    (hcomma : ',' ∉ Text.trim t) : ',' ∉ l.render := by
  obtain ⟨hne, hread⟩ := Record.readSingle_eq_ok_iff.mp h
  exact (isRecord_render ⟨hne, Text.isTrimmed_trim t, hcomma⟩ hread).whole

end Link

/-- What `parse` reads, `parseAll` reads as a batch of one just if `Text.trim` leaves no separator
in it: no line break for `Bind` and `PortSpec`, no comma for `Link`.  The same goes for `render`, of
which a `PortSpec` never has one. -/
theorem parse_agrees_with_parseAll_iff :
    (∀ t b, Bind.parseAll t = .ok [b] ↔ Bind.parse t = .ok b ∧ '\n' ∉ Text.trim t) ∧
    (∀ t s, PortSpec.parseAll t = .ok [s] ↔ PortSpec.parse t = .ok s ∧ '\n' ∉ Text.trim t) ∧
    (∀ t l, Link.parse t = .ok l → (Link.parseAll t = .ok [l] ↔ ',' ∉ Text.trim t)) ∧
    (∀ t b, Bind.parse t = .ok b → (Bind.parseAll b.render = .ok [b] ↔ '\n' ∉ b.render) ∧
      ('\n' ∉ Text.trim t → '\n' ∉ b.render)) ∧
    (∀ t s, PortSpec.parse t = .ok s → PortSpec.parseAll s.render = .ok [s]) ∧
    (∀ t l, Link.parse t = .ok l → (Link.parseAll l.render = .ok [l] ↔ ',' ∉ l.render) ∧
      (',' ∉ Text.trim t → ',' ∉ l.render)) := by
  refine ⟨fun _ _ => Bind.parseAll_eq_singleton_iff, fun _ _ => PortSpec.parseAll_eq_singleton_iff,
    fun _ _ => Link.parseAll_eq_singleton_iff, fun _ _ h => ?_,
    fun _ _ => PortSpec.parseAll_render_of_parse, fun _ _ h => ?_⟩
  · exact ⟨Bind.parseAll_render_eq_singleton_iff h, Bind.not_mem_render_of_parse h⟩
  · exact ⟨Link.parseAll_render_eq_singleton_iff h, Link.not_mem_render_of_parse h⟩

/-- A bind mount with a line break in a path, a port binding over two lines and a link with a comma in
a name: the first two are read from their texts but not from them as batches, nor is the link. -/
theorem parse_agrees_with_parseAll_of_separators :
    Bind.parse "/a:/b\n/c:ro".toList = .ok ⟨"/a".toList, "/b\n/c".toList, .readOnly⟩ ∧
    Bind.parseAll "/a:/b\n/c:ro".toList ≠ .ok [⟨"/a".toList, "/b\n/c".toList, .readOnly⟩] ∧
    PortSpec.parse "80\n8080".toList = .ok ⟨none, 80, 8080, .tcp⟩ ∧
    PortSpec.parseAll (PortSpec.render ⟨none, 80, 8080, .tcp⟩) = .ok [⟨none, 80, 8080, .tcp⟩] ∧
    Link.parse "a,b:c".toList = .ok ⟨"a,b".toList, "c".toList⟩ ∧
    Link.parseAll "a,b:c".toList ≠ .ok [⟨"a,b".toList, "c".toList⟩] := by
  obtain ⟨-, -, hlink, hbind, hport, -⟩ := parse_agrees_with_parseAll_iff
  have hbindRead : Bind.parse "/a:/b\n/c:ro".toList =
      .ok ⟨"/a".toList, "/b\n/c".toList, .readOnly⟩ := by rfl
  have hportRead : PortSpec.parse "80\n8080".toList = .ok ⟨none, 80, 8080, .tcp⟩ := by rfl
  have hlinkRead : Link.parse "a,b:c".toList = .ok ⟨"a,b".toList, "c".toList⟩ := by rfl
  refine ⟨hbindRead, fun h => ?_, hportRead, hport _ _ hportRead, hlinkRead, fun h => ?_⟩
  · exact (hbind _ _ hbindRead).1.mp h (by decide)
  · exact (hlink _ _ hlinkRead).mp h (by decide)

/-- By itself the text is one record, and as a batch it is two records, or an error. -/
theorem parse_and_parseAll_disagree :
    (Bind.parse "/a:/b\n/c:ro".toList = .ok ⟨"/a".toList, "/b\n/c".toList, .readOnly⟩ ∧
      Bind.parseAll "/a:/b\n/c:ro".toList =
        .ok [⟨"/a".toList, "/b".toList, .unspecified⟩, ⟨"/c".toList, "ro".toList, .unspecified⟩]) ∧
    (PortSpec.parse "80\n8080".toList = .ok ⟨none, 80, 8080, .tcp⟩ ∧
      PortSpec.parseAll "80\n8080".toList =
        .error ⟨.portBinding, 1, "80".toList, .noContainerPort .colon⟩) ∧
    (Link.parse "a,b:c".toList = .ok ⟨"a,b".toList, "c".toList⟩ ∧
      Link.parseAll "a,b:c".toList = .error ⟨.link, 1, "a".toList, .notAPair .colon⟩) := by
  exact ⟨⟨rfl, rfl⟩, ⟨rfl, rfl⟩, rfl, rfl⟩

end BuildStep
