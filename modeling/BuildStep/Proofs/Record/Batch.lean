import BuildStep.Proofs.Text.Cutting
import BuildStep.Record
import Mathlib.Data.List.Forall2

/-!
# Batches that are read back

A batch is cut at its separator, blanks around the parts are dropped, and so are the parts that are
blank.  Records that survive this as they are can be joined with the separator into a batch of
exactly these records.

## Key results

- `isRecord_of_mem_numbered`, `map_snd_numbered_eq_filter`: what the parts of a batch are like, and
  which of them count
- `numbered_append`: how they are numbered
- `readAll_eq_ok_iff`: a batch is read if each of its records is
- `readAll_intercalate`: records that are joined into a batch are read one by one
-/

namespace BuildStep.Record

/-- The text is a record as it stands: there is something in it, nothing to trim, and no separator
to cut it at. -/
structure IsRecord (sep : Char) (t : Text) : Prop where
  nonempty : t ≠ []
  trimmed : Text.IsTrimmed t
  whole : sep ∉ t

/-! ## Records and their numbers -/

/-- The record in a batch that has `n` more records before it. -/
def shift (n : Nat) (record : Nat × Text) : Nat × Text :=
  (record.1 + n, record.2)

/-- Parts that come later are counted on from those before them. -/
theorem numbered_append (parts parts' : List Text) :
    numbered (parts ++ parts') = numbered parts ++ (numbered parts').map (shift parts.length) := by
  have hlater : (parts'.map Text.trim).zipIdx (1 + parts.length) =
      ((parts'.map Text.trim).zipIdx 1).map (Prod.map id (· + parts.length)) := by
    rw [List.map_snd_add_zipIdx_eq_zipIdx, Nat.add_comm]
  -- numbers are given before blank parts are dropped, so both halves can be looked at part by part
  unfold numbered
  rw [List.map_append, List.zipIdx_append, List.filterMap_append, List.length_map, hlater,
    List.filterMap_map, List.map_filterMap]
  congr 2
  funext ⟨part, n⟩
  by_cases hempty : part = [] <;> simp [hempty, shift]

theorem numbered_singleton (part : Text) :
    numbered [part] = if Text.trim part = [] then [] else [(1, Text.trim part)] := by
  by_cases hempty : Text.trim part = [] <;> simp [numbered, hempty]

/-- The parts of a batch count that are not blank. -/
theorem map_snd_numbered_eq_filter (parts : List Text) :
    (numbered parts).map Prod.snd = (parts.filter (Text.trim · ≠ [])).map Text.trim := by
  induction parts with
  | nil => rfl
  | cons part parts ih =>
    have hshift : ((numbered parts).map (shift 1)).map Prod.snd = (numbered parts).map Prod.snd := by
      rw [List.map_map]
      rfl
    rw [← List.singleton_append, numbered_append, List.map_append, List.length_singleton, hshift, ih,
      List.filter_append, List.map_append]
    congr 1
    by_cases hempty : Text.trim part = [] <;> simp [numbered_singleton, hempty]

variable {sep : Char}

/-- What is cut out of a batch is a record as it stands. -/
theorem isRecord_of_mem_numbered {batch : Text} {record : Nat × Text}
    (h : record ∈ numbered (batch.splitOn sep)) : IsRecord sep record.2 := by
  have hmem : record.2 ∈ (numbered (batch.splitOn sep)).map Prod.snd := List.mem_map_of_mem h
  rw [map_snd_numbered_eq_filter] at hmem
  obtain ⟨part, hpart, htrim⟩ := List.mem_map.mp hmem
  obtain ⟨hpiece, hne⟩ := List.mem_filter.mp hpart
  rw [← htrim]
  refine ⟨by simpa using hne, Text.isTrimmed_trim part, fun hsep => ?_⟩
  exact (Text.mem_splitOn hpiece sep (Text.mem_of_mem_trim hsep)).1 rfl

/-- Parts that are records as they stand all count, and none is changed. -/
theorem map_snd_numbered {parts : List Text} (h : ∀ t ∈ parts, IsRecord sep t) :
    (numbered parts).map Prod.snd = parts := by
  have hself : ∀ t ∈ parts, Text.trim t = t := fun t ht => Text.trim_eq_self (h t ht).trimmed
  have hkept : parts.filter (Text.trim · ≠ []) = parts := by
    refine List.filter_eq_self.mpr fun t ht => ?_
    simpa [hself t ht] using (h t ht).nonempty
  rw [map_snd_numbered_eq_filter, hkept, List.map_congr_left hself, List.map_id']

/-! ## Reading -/

variable {α : Type} {grammar : Grammar} {reading : Text → Except Fault α}

theorem bind_eq_ok_iff {ε β : Type} {x : Except ε α} {f : α → Except ε β} {y : β} :
    (x >>= f) = .ok y ↔ ∃ a, x = .ok a ∧ f a = .ok y := by
  cases x with
  | error e => simp [bind, Except.bind]
  | ok a => simp [bind, Except.bind]

theorem map_eq_ok_iff {ε β : Type} {x : Except ε α} {f : α → β} {y : β} :
    x.map f = .ok y ↔ ∃ a, x = .ok a ∧ f a = y := by
  cases x with
  | error e => simp [Except.map]
  | ok a => simp [Except.map]

theorem read_eq_ok_iff {record : Nat × Text} {x : α} :
    read grammar reading record = .ok x ↔ reading record.2 = .ok x := by
  unfold read
  split
  · rename_i a ha
    rw [ha]
    simp
  · rename_i fault hfault
    rw [hfault]
    simp

/-- A record that stands alone is read without the blanks around it. -/
theorem readSingle_eq_ok_iff {t : Text} {x : α} :
    readSingle grammar reading t = .ok x ↔ Text.trim t ≠ [] ∧ reading (Text.trim t) = .ok x := by
  unfold readSingle
  split
  · rename_i hempty
    rw [List.isEmpty_iff.mp hempty]
    simp
  · rename_i hne
    rw [read_eq_ok_iff]
    exact (and_iff_right (by simpa using hne)).symm

/-- If there is something to read and it cannot be read, the error has its text and its fault. -/
theorem readSingle_eq_error_iff {t : Text} (hne : Text.trim t ≠ []) {fault : Fault} :
    readSingle grammar reading t = .error ⟨grammar, 1, Text.trim t, fault⟩ ↔
      reading (Text.trim t) = .error fault := by
  have hfull : ¬(Text.trim t).isEmpty = true := by simpa using hne
  rw [readSingle, if_neg hfull, read]
  cases reading (Text.trim t) <;> simp

/-- A batch is read if each of its records is, and then each is read by itself. -/
theorem readAll_eq_ok_iff {records : List (Nat × Text)} {xs : List α} :
    readAll grammar reading records = .ok xs ↔
      List.Forall₂ (fun t x => reading t = .ok x) (records.map Prod.snd) xs := by
  induction records generalizing xs with
  | nil =>
    simp [readAll, pure, Except.pure, eq_comm]
  | cons record records ih =>
    rw [readAll, List.mapM_cons, List.map_cons, List.forall₂_cons_left_iff, bind_eq_ok_iff]
    constructor
    · rintro ⟨x, hfirst, h⟩
      obtain ⟨rest, hrest, h⟩ := bind_eq_ok_iff.mp h
      cases h
      exact ⟨x, rest, read_eq_ok_iff.mp hfirst, ih.mp hrest, rfl⟩
    · rintro ⟨x, rest, hfirst, hrest, rfl⟩
      have hmap : records.mapM (read grammar reading) = .ok rest := ih.mpr hrest
      exact ⟨x, read_eq_ok_iff.mpr hfirst, bind_eq_ok_iff.mpr ⟨rest, hmap, rfl⟩⟩

/-- Nothing is read from a batch but what one of its records says. -/
theorem exists_of_mem_readAll {records : List (Nat × Text)} {xs : List α}
    (h : readAll grammar reading records = .ok xs) {x : α} (hx : x ∈ xs) :
    ∃ record ∈ records, reading record.2 = .ok x := by
  have hall := List.forall₂_map_left_iff.mp (readAll_eq_ok_iff.mp h)
  clear h
  induction hall with
  | nil => cases hx
  | @cons record y records _ hread _ ih =>
    rcases List.mem_cons.mp hx with rfl | hx
    · exact ⟨record, List.mem_cons_self, hread⟩
    · obtain ⟨later, hlater, hread⟩ := ih hx
      exact ⟨later, List.mem_cons_of_mem record hlater, hread⟩

/-- Records that are joined into a batch are cut apart again. -/
theorem map_snd_numbered_intercalate {ts : List Text} (h : ∀ t ∈ ts, IsRecord sep t) :
    (numbered ((List.intercalate [sep] ts).splitOn sep)).map Prod.snd = ts := by
  cases ts with
  | nil => rfl
  | cons t rest =>
    have hsep : ∀ u ∈ t :: rest, sep ∉ u := fun u hu => (h u hu).whole
    rw [List.splitOn_intercalate sep hsep (List.cons_ne_nil t rest)]
    exact map_snd_numbered h

/-- Records that are joined into a batch are read one by one. -/
theorem readAll_intercalate {ts : List Text} {xs : List α} (hrecords : ∀ t ∈ ts, IsRecord sep t)
    (hread : List.Forall₂ (fun t x => reading t = .ok x) ts xs) :
    readAll grammar reading (numbered ((List.intercalate [sep] ts).splitOn sep)) = .ok xs := by
  rw [readAll_eq_ok_iff, map_snd_numbered_intercalate hrecords]
  exact hread

/-- What was read from a batch can be written as a batch that reads the same, if each record can. -/
theorem readAll_map_render {render : α → Text} {batch : Text} {xs : List α}
    (hback : ∀ t x, IsRecord sep t → reading t = .ok x →
      IsRecord sep (render x) ∧ reading (render x) = .ok x)
    (hread : readAll grammar reading (numbered (batch.splitOn sep)) = .ok xs) :
    readAll grammar reading (numbered ((List.intercalate [sep] (xs.map render)).splitOn sep)) =
      .ok xs := by
  have hall := readAll_eq_ok_iff.mp hread
  have hrecords : ∀ t ∈ (numbered (batch.splitOn sep)).map Prod.snd, IsRecord sep t := by
    intro t ht
    obtain ⟨record, hrecord, rfl⟩ := List.mem_map.mp ht
    exact isRecord_of_mem_numbered hrecord
  generalize (numbered (batch.splitOn sep)).map Prod.snd = ts at hall hrecords
  have hsame : (∀ u ∈ xs.map render, IsRecord sep u) ∧
      List.Forall₂ (fun t x => reading t = .ok x) (xs.map render) xs := by
    clear hread
    induction hall with
    | nil => exact ⟨List.forall_mem_nil _, .nil⟩
    | @cons t x ts xs hx _ ih =>
      obtain ⟨hrest, hreads⟩ := ih fun u hu => hrecords u (List.mem_cons_of_mem t hu)
      obtain ⟨hrecord, hread⟩ := hback t x (hrecords t List.mem_cons_self) hx
      exact ⟨List.forall_mem_cons.mpr ⟨hrecord, hrest⟩, .cons hread hreads⟩
  exact readAll_intercalate hsame.1 hsame.2

end BuildStep.Record
