import BuildStep.Bind.Grammar
import BuildStep.Link.Grammar
import BuildStep.Proofs.Record.Batch

/-!
# Records of bind mounts and links

Both are fields with a colon in between when they are written, and may have blanks in between when
they are read.  Whichever way a record was written, what it says can be written with colons, and that
is read as the same thing again.

## Key results

- `Exclusive.firstReading_eq_ok_iff`: what two readings accept between them
- `Bind.readColons_eq_ok_iff`, `Bind.readBlanks_eq_ok_iff`, `Link.ofFields_eq_ok_iff`: what the
  readings accept
- `Bind.read_render`, `Link.read_render`: what is written reads back
- `Bind.isRecord_render`, `Link.isRecord_render`: it is written as a record of the same batch
-/

namespace BuildStep

section FirstReading

variable {α : Type}

theorem firstReading_eq_ok {first second : Except Fault α} {x : α}
    (h : firstReading first second = .ok x) : first = .ok x ∨ second = .ok x := by
  cases first with
  | ok a => exact .inl h
  | error e =>
    cases second with
    | ok a => exact .inr h
    | error e' =>
      rw [firstReading] at h
      split at h <;> cases h

@[simp]
theorem firstReading_ok (x : α) (second : Except Fault α) : firstReading (.ok x) second = .ok x := by
  cases second <;> rfl

/-- Where the first reading does not succeed, the second one may. -/
theorem firstReading_of_ne_ok {first : Except Fault α} (h : ∀ y, first ≠ .ok y) (x : α) :
    firstReading first (.ok x) = .ok x := by
  cases first with
  | ok y => exact absurd rfl (h y)
  | error e => rfl

/-- At most one of two readings of a record succeeds. -/
def Exclusive (first second : Except Fault α) : Prop :=
  ¬∃ x y, first = .ok x ∧ second = .ok y

theorem Exclusive.symm {first second : Except Fault α} (h : Exclusive first second) :
    Exclusive second first :=
  fun ⟨x, y, hsecond, hfirst⟩ => h ⟨y, x, hfirst, hsecond⟩

/-- Of readings that exclude each other either one may be what is accepted. -/
theorem Exclusive.firstReading_eq_ok_iff {first second : Except Fault α}
    (h : Exclusive first second) {x : α} :
    firstReading first second = .ok x ↔ first = .ok x ∨ second = .ok x := by
  constructor
  · exact firstReading_eq_ok
  · rintro (hfirst | hsecond)
    · rw [hfirst, firstReading_ok]
    · rw [hsecond]
      exact firstReading_of_ne_ok (fun y hfirst => h ⟨y, x, hfirst, hsecond⟩) x

/-- Readings that exclude each other may be tried in any order. -/
theorem Exclusive.firstReading_comm {first second : Except Fault α} (h : Exclusive first second)
    (x : α) : firstReading second first = .ok x ↔ firstReading first second = .ok x := by
  rw [h.symm.firstReading_eq_ok_iff, h.firstReading_eq_ok_iff, or_comm]

/-- If no reading succeeds, the fault is that of one of them. -/
theorem firstReading_eq_error {first second : Except Fault α} {fault : Fault}
    (h : firstReading first second = .error fault) :
    ∃ e e', first = .error e ∧ second = .error e' ∧ (fault = e ∨ fault = e') := by
  cases first with
  | ok a =>
    rw [firstReading_ok] at h
    cases h
  | error e =>
    cases second with
    | ok a => cases h
    | error e' =>
      refine ⟨e, e', rfl, rfl, ?_⟩
      rw [firstReading] at h
      split at h
      · cases h
        exact .inr rfl
      · cases h
        exact .inl rfl

end FirstReading

/-- A text without blanks is a record wherever it has no separator. -/
theorem Record.isRecord_of_forall {sep : Char} {t : Text} (hne : t ≠ [])
    (hblank : ∀ c ∈ t, Text.isBlank c = false) (hsep : sep ∉ t) : IsRecord sep t where
  nonempty := hne
  trimmed := Text.isTrimmed_of_forall hblank
  whole := hsep

/-! ## Bind mounts -/

theorem AccessMode.token?_of_ofToken? {t : Text} {m : AccessMode} (h : ofToken? t = some m) :
    m.token? = some t := by
  rw [ofToken?] at h
  split at h
  · rename_i ht
    cases h
    rw [ht]
    rfl
  · split at h
    · rename_i ht
      cases h
      rw [ht]
      rfl
    · cases h

namespace Bind

/-- The paths of the bind mount can stand in a record. -/
structure Valid (b : Bind) : Prop where
  hostPath : b.hostPath ≠ []
  containerPath : b.containerPath ≠ []
  hostWhole : ':' ∉ b.hostPath
  containerWhole : ':' ∉ b.containerPath

/-- What stands in a record of the bind mount. -/
def fields (b : Bind) : List Text :=
  b.hostPath :: b.containerPath :: b.mode.token?.toList

theorem render_eq (b : Bind) : b.render = List.intercalate [':'] b.fields := by
  obtain ⟨host, container, mode⟩ := b
  cases mode <;> simp [render, fields, AccessMode.token?, List.intercalate, List.intersperse]

theorem readMode_eq_ok_iff {token : Option Text} {m : AccessMode} :
    readMode token = .ok m ↔ m.token? = token := by
  constructor
  · intro h
    cases token with
    | none =>
      cases h
      rfl
    | some t =>
      rw [readMode] at h
      split at h
      · rename_i m' hm
        cases h
        exact AccessMode.token?_of_ofToken? hm
      · cases h
  · rintro rfl
    cases m <;> rfl

theorem ofParts_eq_ok_iff {host container : Text} {token : Option Text} {b : Bind} :
    ofParts host container token = .ok b ↔
      b.Valid ∧ b.hostPath = host ∧ b.containerPath = container ∧ b.mode.token? = token := by
  constructor
  · intro h
    rw [ofParts] at h
    split at h; · cases h
    split at h; · cases h
    split at h; · cases h
    split at h; · cases h
    rename_i hhost hcontainer hhostWhole hcontainerWhole
    cases hmode : readMode token with
    | error e =>
      rw [hmode] at h
      cases h
    | ok m =>
      rw [hmode] at h
      cases h
      have hvalid : Valid ⟨host, container, m⟩ := by
        constructor
        · simpa using hhost
        · simpa using hcontainer
        · simpa using hhostWhole
        · simpa using hcontainerWhole
      exact ⟨hvalid, rfl, rfl, readMode_eq_ok_iff.mp hmode⟩
  · rintro ⟨hvalid, rfl, rfl, rfl⟩
    have hmode : readMode b.mode.token? = .ok b.mode := readMode_eq_ok_iff.mpr rfl
    simp [ofParts, hmode, hvalid.hostPath, hvalid.containerPath, hvalid.hostWhole,
      hvalid.containerWhole, Except.map]

/-- Fields are accepted if they are those of a bind mount that can stand in a record. -/
theorem ofFields_eq_ok_iff {d : Delimiter} {fs : List Text} {b : Bind} :
    ofFields d fs = .ok b ↔ b.Valid ∧ fs = b.fields := by
  unfold ofFields
  split
  · rename_i host container
    rw [ofParts_eq_ok_iff, fields]
    cases b.mode <;> simp [AccessMode.token?, eq_comm]
  · rename_i host container mode
    rw [ofParts_eq_ok_iff, fields]
    cases b.mode <;> simp [AccessMode.token?, eq_comm]
  · rename_i htwo hthree
    constructor
    · intro h
      cases h
    · rintro ⟨-, rfl⟩
      cases hmode : b.mode.token? with
      | none => exact absurd (by rw [fields, hmode]; rfl) (htwo b.hostPath b.containerPath)
      | some token =>
        exact absurd (by rw [fields, hmode]; rfl) (hthree b.hostPath b.containerPath token)

theorem Valid.not_mem_fields {b : Bind} (hb : b.Valid) : ∀ f ∈ b.fields, ':' ∉ f := by
  intro f hf
  rw [fields] at hf
  rcases List.mem_cons.mp hf with rfl | hf
  · exact hb.hostWhole
  · rcases List.mem_cons.mp hf with rfl | hf
    · exact hb.containerWhole
    · have htoken : b.mode.token? = some f := by simpa using hf
      cases hmode : b.mode with
      | unspecified => simp [hmode, AccessMode.token?] at htoken
      | readOnly =>
        simp only [hmode, AccessMode.token?, Option.some.injEq] at htoken
        subst htoken
        decide
      | readWrite =>
        simp only [hmode, AccessMode.token?, Option.some.injEq] at htoken
        subst htoken
        decide

/-- With colons there is one way to write a bind mount. -/
theorem readColons_eq_ok_iff {t : Text} {b : Bind} :
    readColons t = .ok b ↔ b.Valid ∧ t = b.render := by
  rw [readColons, ofFields_eq_ok_iff, render_eq]
  constructor
  · rintro ⟨hvalid, hsplit⟩
    refine ⟨hvalid, ?_⟩
    rw [← hsplit, List.intercalate_splitOn]
  · rintro ⟨hvalid, rfl⟩
    refine ⟨hvalid, ?_⟩
    exact List.splitOn_intercalate ':' hvalid.not_mem_fields (List.cons_ne_nil _ _)

/-- With blanks it is the words that count. -/
theorem readBlanks_eq_ok_iff {t : Text} {b : Bind} :
    readBlanks t = .ok b ↔ b.Valid ∧ Text.words t = b.fields :=
  ofFields_eq_ok_iff

/-- Fields that are words are made of the characters of the text that are not blank. -/
theorem mem_fields_of_words {t : Text} {b : Bind} (h : Text.words t = b.fields) :
    ∀ f ∈ b.fields, f ≠ [] ∧ ∀ c ∈ f, Text.isBlank c = false ∧ c ∈ t :=
  fun _ hf => Text.mem_words (h ▸ hf)

theorem valid_of_read {t : Text} {b : Bind} (h : read t = .ok b) : b.Valid := by
  rcases firstReading_eq_ok h with h | h
  · exact (readColons_eq_ok_iff.mp h).1
  · exact (readBlanks_eq_ok_iff.mp h).1

/-- A bind mount is read as it is written. -/
theorem read_render {b : Bind} (hb : b.Valid) : read b.render = .ok b := by
  have hcolons : readColons b.render = .ok b := readColons_eq_ok_iff.mpr ⟨hb, rfl⟩
  rw [read, hcolons, firstReading_ok]

/-- What one line says is written on one line. -/
theorem isRecord_render {t : Text} {b : Bind} (ht : Record.IsRecord '\n' t) (h : read t = .ok b) :
    Record.IsRecord '\n' b.render := by
  rcases firstReading_eq_ok h with h | h
  · -- a record with colons is written as it was
    rw [← (readColons_eq_ok_iff.mp h).2]
    exact ht
  · -- in one with blanks no field has a blank, and a line break would be one
    obtain ⟨hvalid, hwords⟩ := readBlanks_eq_ok_iff.mp h
    have hblank : ∀ c ∈ b.render, Text.isBlank c = false := by
      intro c hc
      rw [render_eq] at hc
      rcases Text.mem_intercalate hc with hc | ⟨f, hf, hc⟩
      · rw [List.mem_singleton.mp hc]
        decide
      · exact ((mem_fields_of_words hwords f hf).2 c hc).1
    have hne : b.render ≠ [] := by simp [render]
    refine Record.isRecord_of_forall hne hblank ?_
    intro hbreak
    have hfalse := hblank _ hbreak
    exact absurd hfalse (by decide)

end Bind

/-! ## Links -/

namespace Link

/-- The names of the link can stand in a record. -/
structure Valid (l : Link) : Prop where
  name : l.name ≠ []
  knownAs : l.knownAs ≠ []
  nameWhole : hasDelimiter l.name = false
  knownAsWhole : hasDelimiter l.knownAs = false

theorem hasDelimiter_eq_false_iff {t : Text} :
    hasDelimiter t = false ↔ ':' ∉ t ∧ ∀ c ∈ t, Text.isBlank c = false := by
  simp [hasDelimiter]

theorem ofParts_eq_ok_iff {name knownAs : Text} {l : Link} :
    ofParts name knownAs = .ok l ↔ l.Valid ∧ l.name = name ∧ l.knownAs = knownAs := by
  constructor
  · intro h
    rw [ofParts] at h
    split at h; · cases h
    split at h; · cases h
    split at h; · cases h
    split at h; · cases h
    rename_i hname hknownAs hnameWhole hknownAsWhole
    cases h
    have hvalid : Valid ⟨name, knownAs⟩ := by
      constructor
      · simpa using hname
      · simpa using hknownAs
      · simpa using hnameWhole
      · simpa using hknownAsWhole
    exact ⟨hvalid, rfl, rfl⟩
  · rintro ⟨hvalid, rfl, rfl⟩
    simp [ofParts, hvalid.name, hvalid.knownAs, hvalid.nameWhole, hvalid.knownAsWhole]

/-- Fields are accepted if there are two, and they are the names of a link but for blanks. -/
theorem ofFields_eq_ok_iff {d : Delimiter} {fs : List Text} {l : Link} :
    ofFields d fs = .ok l ↔ l.Valid ∧ fs.map Text.trim = [l.name, l.knownAs] := by
  unfold ofFields
  split
  · rename_i name knownAs
    rw [ofParts_eq_ok_iff]
    simp [eq_comm]
  · rename_i htwo
    constructor
    · intro h
      cases h
    · rintro ⟨-, hfields⟩
      obtain ⟨name, rest, rfl, -, hrest⟩ := List.map_eq_cons_iff.mp hfields
      obtain ⟨knownAs, rest, rfl, -, hrest⟩ := List.map_eq_cons_iff.mp hrest
      rw [List.map_eq_nil_iff.mp hrest] at htwo
      exact absurd rfl (htwo name knownAs)

/-- The names of a link that was read are made of the characters of the record. -/
theorem mem_of_ofFields {d : Delimiter} {fs : List Text} {l : Link} (h : ofFields d fs = .ok l)
    {c : Char} (hc : c ∈ l.name ∨ c ∈ l.knownAs) : ∃ f ∈ fs, c ∈ f := by
  obtain ⟨-, hfields⟩ := ofFields_eq_ok_iff.mp h
  have hmem : ∃ g ∈ fs.map Text.trim, c ∈ g := by
    rw [hfields]
    simpa using hc
  obtain ⟨g, hg, hc⟩ := hmem
  obtain ⟨f, hf, rfl⟩ := List.mem_map.mp hg
  exact ⟨f, hf, Text.mem_of_mem_trim hc⟩

theorem valid_of_read {t : Text} {l : Link} (h : read t = .ok l) : l.Valid := by
  rcases firstReading_eq_ok h with h | h
  · exact (ofFields_eq_ok_iff.mp h).1
  · exact (ofFields_eq_ok_iff.mp h).1

/-- There is no delimiter in a name. -/
theorem Valid.plain {l : Link} (hl : l.Valid) {c : Char} (hc : c ∈ l.name ∨ c ∈ l.knownAs) :
    c ≠ ':' ∧ Text.isBlank c = false := by
  obtain ⟨hnameColon, hnameBlank⟩ := hasDelimiter_eq_false_iff.mp hl.nameWhole
  obtain ⟨hknownAsColon, hknownAsBlank⟩ := hasDelimiter_eq_false_iff.mp hl.knownAsWhole
  rcases hc with hc | hc
  · exact ⟨fun h => hnameColon (h ▸ hc), hnameBlank c hc⟩
  · exact ⟨fun h => hknownAsColon (h ▸ hc), hknownAsBlank c hc⟩

/-- So blanks around a name are no part of it. -/
theorem Valid.trim_eq {l : Link} (hl : l.Valid) :
    Text.trim l.name = l.name ∧ Text.trim l.knownAs = l.knownAs :=
  ⟨Text.trim_eq_self (Text.isTrimmed_of_forall fun _ hc => (hl.plain (.inl hc)).2),
    Text.trim_eq_self (Text.isTrimmed_of_forall fun _ hc => (hl.plain (.inr hc)).2)⟩

theorem mem_render {l : Link} {c : Char} : c ∈ l.render ↔ c = ':' ∨ c ∈ l.name ∨ c ∈ l.knownAs := by
  simp only [render, List.mem_append, List.mem_cons]
  tauto

/-- A link is written without blanks. -/
theorem Valid.render_plain {l : Link} (hl : l.Valid) : ∀ c ∈ l.render, Text.isBlank c = false := by
  intro c hc
  rcases mem_render.mp hc with rfl | hc
  · decide
  · exact (hl.plain hc).2

/-- A link is read as it is written. -/
theorem read_render {l : Link} (hl : l.Valid) : read l.render = .ok l := by
  have hnameColon : ':' ∉ l.name := fun h => (hl.plain (.inl h)).1 rfl
  have hknownAsColon : ':' ∉ l.knownAs := fun h => (hl.plain (.inr h)).1 rfl
  have hsplit : l.render.splitOn ':' = [l.name, l.knownAs] := by
    rw [render, List.splitOn_append_cons_self_of_not_mem hnameColon,
      List.splitOn_eq_singleton hknownAsColon]
  have htrim : [l.name, l.knownAs].map Text.trim = [l.name, l.knownAs] := by
    rw [List.map_cons, List.map_cons, List.map_nil, hl.trim_eq.1, hl.trim_eq.2]
  have hcolons : readColons l.render = .ok l := by
    rw [readColons, hsplit]
    exact ofFields_eq_ok_iff.mpr ⟨hl, htrim⟩
  rw [read, hcolons, firstReading_ok]

/-- What one item says is written without a comma. -/
theorem isRecord_render {t : Text} {l : Link} (ht : Record.IsRecord ',' t) (h : read t = .ok l) :
    Record.IsRecord ',' l.render := by
  have hl := valid_of_read h
  have hchars : ∀ c, c ∈ l.name ∨ c ∈ l.knownAs → c ∈ t := by
    intro c hc
    rcases firstReading_eq_ok h with h | h
    · obtain ⟨f, hf, hc⟩ := mem_of_ofFields h hc
      exact (Text.mem_splitOn hf c hc).2
    · obtain ⟨f, hf, hc⟩ := mem_of_ofFields h hc
      exact ((Text.mem_words hf).2 c hc).2
  have hne : l.render ≠ [] := by simp [render]
  refine Record.isRecord_of_forall hne hl.render_plain ?_
  intro hcomma
  rcases mem_render.mp hcomma with hc | hc
  · exact absurd hc (by decide)
  · exact ht.whole (hchars ',' hc)

end Link

end BuildStep
