import BuildStep.Proofs.HostConfig.ReadBack
import BuildStep.Proofs.Record.PortGrammar

/-!
# Records that read back

A record that is rendered and read again is the same record if it can stand in a text by itself: its
parts must be in form, and its ends must not be blank, for blanks around a text do not belong to a
record.  Every other record is lost, and no reader ever returns one.

## Key results

- `Record.ReadsBack`: what makes a kind of records read back, and what follows from it
- `Bind.isTrimmed_render_iff`: which bind mounts keep their ends
- `parse_render_iff_writable`: for bind mounts, port bindings and links
-/

namespace BuildStep

namespace Record

/-- Records with some property, and only these, are read from trimmed texts, and they are read as
they are written. -/
structure ReadsBack {α : Type} (reading : Text → Except Fault α) (render : α → Text)
    (writable : α → Prop) : Prop where
  writable_of_read : ∀ {t x}, Text.IsTrimmed t → reading t = .ok x → writable x
  nonempty : ∀ x, render x ≠ []
  trimmed : ∀ {x}, writable x → Text.IsTrimmed (render x)
  read_render : ∀ {x}, writable x → reading (render x) = .ok x

variable {α : Type} {reading : Text → Except Fault α} {render : α → Text} {writable : α → Prop}
  {grammar : Grammar}

/-- A record that was read by itself is one of them. -/
theorem ReadsBack.writable_of_readSingle (h : ReadsBack reading render writable) {t : Text} {x : α}
    (hread : readSingle grammar reading t = .ok x) : writable x :=
  h.writable_of_read (Text.isTrimmed_trim t) (readSingle_eq_ok_iff.mp hread).2

/-- So is one that was read in a batch. -/
theorem ReadsBack.writable_of_readAll (h : ReadsBack reading render writable) {sep : Char}
    {batch : Text} {xs : List α}
    (hread : readAll grammar reading (numbered (batch.splitOn sep)) = .ok xs) :
    ∀ x ∈ xs, writable x := by
  intro x hx
  obtain ⟨record, hrecord, hreading⟩ := exists_of_mem_readAll hread hx
  exact h.writable_of_read (isRecord_of_mem_numbered hrecord).trimmed hreading

/-- And no other record reads back. -/
theorem ReadsBack.readSingle_render_iff (h : ReadsBack reading render writable) {x : α} :
    readSingle grammar reading (render x) = .ok x ↔ writable x := by
  refine ⟨h.writable_of_readSingle, fun hx => ?_⟩
  rw [readSingle_eq_ok_iff, Text.trim_eq_self (h.trimmed hx)]
  exact ⟨h.nonempty x, h.read_render hx⟩

end Record

/-! ## Bind mounts -/

namespace Bind

/-- The bind mount has paths, without colons, and neither end of what is written is blank: a mode is
written behind the path in the container, if there is one. -/
structure Writable (b : Bind) : Prop where
  hostPath : b.hostPath ≠ [] ∧ ':' ∉ b.hostPath
  containerPath : b.containerPath ≠ [] ∧ ':' ∉ b.containerPath
  head : ∀ c, b.hostPath.head? = some c → Text.isBlank c = false
  last : b.mode = .unspecified → ∀ c, b.containerPath.getLast? = some c → Text.isBlank c = false

theorem Writable.valid {b : Bind} (h : b.Writable) : b.Valid :=
  ⟨h.hostPath.1, h.containerPath.1, h.hostPath.2, h.containerPath.2⟩

theorem head?_render {b : Bind} (hb : b.Valid) : b.render.head? = b.hostPath.head? := by
  rw [render, List.append_assoc, List.head?_append_of_ne_nil _ hb.hostPath]

theorem getLast?_render {b : Bind} (hb : b.Valid) :
    b.render.getLast? =
      match b.mode with
      | .unspecified => b.containerPath.getLast?
      | .readOnly => some 'o'
      | .readWrite => some 'w' := by
  obtain ⟨host, container, mode⟩ := b
  have hcontainer : container ≠ [] := hb.containerPath
  cases mode with
  | unspecified =>
    have hrender : render ⟨host, container, .unspecified⟩ = (host ++ [':']) ++ container := by
      simp [render, AccessMode.token?]
    rw [hrender, List.getLast?_append_of_ne_nil _ hcontainer]
  | readOnly => exact List.getLast?_append_of_ne_nil (host ++ ':' :: container) (List.cons_ne_nil _ _)
  | readWrite => exact List.getLast?_append_of_ne_nil (host ++ ':' :: container) (List.cons_ne_nil _ _)

/-- What is written keeps its ends just if they are not blank. -/
theorem isTrimmed_render_iff {b : Bind} (hb : b.Valid) :
    Text.IsTrimmed b.render ↔ b.Writable := by
  constructor
  · rintro ⟨hhead, hlast⟩
    rw [head?_render hb] at hhead
    rw [getLast?_render hb] at hlast
    refine ⟨⟨hb.hostPath, hb.hostWhole⟩, ⟨hb.containerPath, hb.containerWhole⟩, hhead, ?_⟩
    intro hmode
    rw [hmode] at hlast
    exact hlast
  · intro h
    refine ⟨?_, ?_⟩
    · rw [head?_render hb]
      exact h.head
    · rw [getLast?_render hb]
      cases hmode : b.mode with
      | unspecified => exact h.last hmode
      | readOnly =>
        rintro c ⟨⟩
        decide
      | readWrite =>
        rintro c ⟨⟩
        decide

theorem writable_of_read {t : Text} {b : Bind} (ht : Text.IsTrimmed t) (h : read t = .ok b) :
    b.Writable := by
  have hvalid := valid_of_read h
  rcases firstReading_eq_ok h with h | h
  · -- a record with colons is written as it was read
    rw [← isTrimmed_render_iff hvalid, ← (readColons_eq_ok_iff.mp h).2]
    exact ht
  · -- a word has no blank in it
    obtain ⟨-, hwords⟩ := readBlanks_eq_ok_iff.mp h
    have hplain : ∀ f ∈ b.fields, ∀ c ∈ f, Text.isBlank c = false := fun f hf c hc =>
      ((mem_fields_of_words hwords f hf).2 c hc).1
    refine ⟨⟨hvalid.hostPath, hvalid.hostWhole⟩, ⟨hvalid.containerPath, hvalid.containerWhole⟩,
      fun c hc => ?_, fun _ c hc => ?_⟩
    · exact hplain b.hostPath (by simp [fields]) c (List.mem_of_head? hc)
    · exact hplain b.containerPath (by simp [fields]) c (List.mem_of_getLast? hc)

theorem readsBack : Record.ReadsBack read render Writable where
  writable_of_read := writable_of_read
  nonempty b := by simp [render]
  trimmed h := (isTrimmed_render_iff h.valid).mpr h
  read_render h := read_render h.valid

end Bind

/-! ## Port bindings -/

namespace PortSpec

/-- The container has a port, and the host has any address or one that is a dotted quad. -/
structure Writable (s : PortSpec) : Prop where
  positive : 0 < s.containerPort
  address : ∀ ip, s.hostIp = some ip → IsQuad ip

theorem writable_iff_valid {s : PortSpec} : s.Writable ↔ s.Valid := by
  constructor
  · rintro ⟨hpositive, haddress⟩
    refine ⟨UInt16.pos_iff_ne_zero.mp hpositive, ?_⟩
    exact fun ip hip => isDottedQuad_iff.mpr (haddress ip hip)
  · rintro ⟨hpositive, haddress⟩
    refine ⟨UInt16.pos_iff_ne_zero.mpr hpositive, ?_⟩
    exact fun ip hip => isDottedQuad_iff.mp (haddress ip hip)

theorem readsBack : Record.ReadsBack read render Writable where
  writable_of_read _ h := writable_iff_valid.mpr (valid_of_read h)
  nonempty s := by simp [render]
  trimmed h := (isRecord_render (writable_iff_valid.mp h)).trimmed
  read_render h := read_render (writable_iff_valid.mp h)

end PortSpec

/-! ## Links -/

namespace Link

/-- Both names have something in them, but neither colons nor blanks. -/
structure Writable (l : Link) : Prop where
  name : l.name ≠ []
  knownAs : l.knownAs ≠ []
  plain : ∀ c, c ∈ l.name ∨ c ∈ l.knownAs → c ≠ ':' ∧ Text.isBlank c = false

theorem writable_iff_valid {l : Link} : l.Writable ↔ l.Valid := by
  constructor
  · rintro ⟨hname, hknownAs, hplain⟩
    refine ⟨hname, hknownAs, hasDelimiter_eq_false_iff.mpr ⟨?_, ?_⟩,
      hasDelimiter_eq_false_iff.mpr ⟨?_, ?_⟩⟩
    · exact fun h => (hplain _ (.inl h)).1 rfl
    · exact fun c hc => (hplain c (.inl hc)).2
    · exact fun h => (hplain _ (.inr h)).1 rfl
    · exact fun c hc => (hplain c (.inr hc)).2
  · intro hl
    exact ⟨hl.name, hl.knownAs, fun c => hl.plain⟩

theorem readsBack : Record.ReadsBack read render Writable where
  writable_of_read _ h := writable_iff_valid.mpr (valid_of_read h)
  nonempty l := by simp [render]
  trimmed h := Text.isTrimmed_of_forall (writable_iff_valid.mp h).render_plain
  read_render h := read_render (writable_iff_valid.mp h)

end Link

/-! ## All three -/

/-- `parse` reads back what `render` writes just if the record is `Writable`, as all records are
that `parse`, `parseAll` and `parseBindings` return. -/
theorem parse_render_iff_writable :
    (∀ s : PortSpec, PortSpec.parse s.render = .ok s ↔ s.Writable) ∧
    (∀ b : Bind, Bind.parse b.render = .ok b ↔ b.Writable) ∧
    (∀ l : Link, Link.parse l.render = .ok l ↔ l.Writable) ∧
    (∀ t s, PortSpec.parse t = .ok s → s.Writable) ∧
    (∀ t b, Bind.parse t = .ok b → b.Writable) ∧
    (∀ t l, Link.parse t = .ok l → l.Writable) ∧
    (∀ batch specs, PortSpec.parseAll batch = .ok specs → ∀ s ∈ specs, s.Writable) ∧
    (∀ batch ports, PortSpec.parseBindings batch = .ok ports → ∀ s ∈ ports.toSpecs, s.Writable) ∧
    (∀ batch binds, Bind.parseAll batch = .ok binds → ∀ b ∈ binds, b.Writable) ∧
    (∀ batch links, Link.parseAll batch = .ok links → ∀ l ∈ links, l.Writable) := by
  refine ⟨fun s => PortSpec.readsBack.readSingle_render_iff,
    fun b => Bind.readsBack.readSingle_render_iff, fun l => Link.readsBack.readSingle_render_iff,
    fun t s => PortSpec.readsBack.writable_of_readSingle,
    fun t b => Bind.readsBack.writable_of_readSingle,
    fun t l => Link.readsBack.writable_of_readSingle,
    fun batch specs => PortSpec.readsBack.writable_of_readAll, ?_,
    fun batch binds => Bind.readsBack.writable_of_readAll,
    fun batch links => Link.readsBack.writable_of_readAll⟩
  intro batch ports h s hs
  exact PortSpec.writable_iff_valid.mpr (PortSpec.valid_of_mem_toSpecs h s hs)

/-- A path that could be a mode is told from one by its place, and keeps a blank at its end if a mode
follows. -/
example : Bind.parse (Bind.render ⟨"/a".toList, "ro ".toList, .readWrite⟩) =
    .ok ⟨"/a".toList, "ro ".toList, .readWrite⟩ := by
  rfl

end BuildStep
