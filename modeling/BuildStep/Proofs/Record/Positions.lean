import BuildStep.Proofs.Record.Batch

/-!
# Where a batch fails

The records of a batch are numbered from one, and blank records count.  What stands before a part of
a batch therefore moves the numbers of that part, and nothing else: two batches that are put one
after the other are read as each of them by itself, and an error in the second has all the records of
the first before it.

## Key results

- `readAll_append`: batches that are put one after the other
- `exists_readAll_iff`, `readAll_eq_error_iff`: a batch fails at the first record that cannot be read
-/

namespace BuildStep

/-- The error in a batch that has `n` more records before it. -/
def GrammarError.after (n : Nat) (e : GrammarError) : GrammarError :=
  { e with record := e.record + n }

namespace Record

/-- What two parts of a batch say together, of which the first has `n` records. -/
def join {β : Type} (n : Nat) (combine : β → β → β) :
    Except GrammarError β → Except GrammarError β → Except GrammarError β
  | .error e, _ => .error e
  | .ok _, .error e => .error (e.after n)
  | .ok x, .ok y => .ok (combine x y)

/-! ## One part after the other -/

variable {α : Type} {grammar : Grammar} {reading : Text → Except Fault α}

theorem read_shift (n : Nat) (record : Nat × Text) :
    read grammar reading (shift n record) =
      (read grammar reading record).mapError (GrammarError.after n) := by
  simp only [read, shift]
  cases reading record.2 <;> rfl

theorem readAll_map_shift (n : Nat) (records : List (Nat × Text)) :
    readAll grammar reading (records.map (shift n)) =
      (readAll grammar reading records).mapError (GrammarError.after n) := by
  induction records with
  | nil => rfl
  | cons record records ih =>
    simp only [readAll] at ih ⊢
    rw [List.map_cons, List.mapM_cons, List.mapM_cons, ih, read_shift]
    cases read grammar reading record with
    | error e => rfl
    | ok x => cases records.mapM (read grammar reading) <;> rfl

/-- Batches that are put one after the other are read one after the other. -/
theorem readAll_append (parts parts' : List Text) :
    readAll grammar reading (numbered (parts ++ parts')) =
      join parts.length (· ++ ·) (readAll grammar reading (numbered parts))
        (readAll grammar reading (numbered parts')) := by
  have hlater : readAll grammar reading ((numbered parts').map (shift parts.length)) =
      (readAll grammar reading (numbered parts')).mapError (GrammarError.after parts.length) :=
    readAll_map_shift parts.length (numbered parts')
  simp only [readAll] at hlater ⊢
  rw [numbered_append, List.mapM_append, hlater]
  -- the second part is looked at only if the first one can be read
  cases (numbered parts).mapM (read grammar reading) with
  | error e => rfl
  | ok xs => cases (numbered parts').mapM (read grammar reading) <;> rfl

/-! ## The first record that cannot be read -/

theorem exists_forall₂_iff {β γ : Type} {R : β → γ → Prop} {l : List β} :
    (∃ l', List.Forall₂ R l l') ↔ ∀ x ∈ l, ∃ y, R x y := by
  induction l with
  | nil => simp
  | cons x l ih =>
    rw [List.forall_mem_cons, ← ih]
    constructor
    · rintro ⟨_, _ | ⟨hx, hl⟩⟩
      exact ⟨⟨_, hx⟩, _, hl⟩
    · rintro ⟨⟨y, hx⟩, l', hl⟩
      exact ⟨y :: l', .cons hx hl⟩

theorem forall₂_congr_of_mem {β γ : Type} {R R' : β → γ → Prop} {l : List β} {l' : List γ}
    (h : ∀ x ∈ l, ∀ y, R x y ↔ R' x y) : List.Forall₂ R l l' ↔ List.Forall₂ R' l l' := by
  induction l generalizing l' with
  | nil => simp only [List.forall₂_nil_left_iff]
  | cons x l ih =>
    have hrest : ∀ l', List.Forall₂ R l l' ↔ List.Forall₂ R' l l' := fun l' =>
      ih fun z hz => h z (List.mem_cons_of_mem x hz)
    simp only [List.forall₂_cons_left_iff, hrest, h x List.mem_cons_self]

/-- What is read comes from the parts that are not blank, one by one. -/
theorem readAll_numbered_eq_ok_iff {parts : List Text} {xs : List α} :
    readAll grammar reading (numbered parts) = .ok xs ↔
      List.Forall₂ (fun part x => reading (Text.trim part) = .ok x)
        (parts.filter (Text.trim · ≠ [])) xs := by
  rw [readAll_eq_ok_iff, map_snd_numbered_eq_filter, List.forall₂_map_left_iff]

/-- A batch is read if all its parts can be that are not blank. -/
theorem exists_readAll_iff {parts : List Text} :
    (∃ xs, readAll grammar reading (numbered parts) = .ok xs) ↔
      ∀ part ∈ parts, Text.trim part ≠ [] → ∃ x, reading (Text.trim part) = .ok x := by
  simp only [readAll_numbered_eq_ok_iff, exists_forall₂_iff]
  simp

theorem readAll_cons_of_error {part : Text} {fault : Fault} (hpart : Text.trim part ≠ [])
    (hfault : reading (Text.trim part) = .error fault) (parts : List Text) :
    readAll grammar reading (numbered (part :: parts)) = .error ⟨grammar, 1, Text.trim part, fault⟩ := by
  have hsingle : readAll grammar reading (numbered [part]) =
      .error ⟨grammar, 1, Text.trim part, fault⟩ := by
    simp [numbered_singleton, hpart, readAll, read, hfault, bind, Except.bind]
  rw [← List.singleton_append, readAll_append, hsingle]
  rfl

/-- A batch fails at its first record that cannot be read, and with the fault of that record. -/
theorem readAll_eq_error_iff {parts : List Text} {e : GrammarError} :
    readAll grammar reading (numbered parts) = .error e ↔
      ∃ before part after fault, parts = before ++ part :: after ∧
        (∀ p ∈ before, Text.trim p ≠ [] → ∃ x, reading (Text.trim p) = .ok x) ∧
        Text.trim part ≠ [] ∧ reading (Text.trim part) = .error fault ∧
        e = ⟨grammar, before.length + 1, Text.trim part, fault⟩ := by
  -- a batch that is cut at a record with a fault fails there; the converse looks for the cut
  have hfails : ∀ {before part after fault}, parts = before ++ part :: after →
      (∀ p ∈ before, Text.trim p ≠ [] → ∃ x, reading (Text.trim p) = .ok x) →
      Text.trim part ≠ [] → reading (Text.trim part) = .error fault →
      readAll grammar reading (numbered parts) =
        .error ⟨grammar, before.length + 1, Text.trim part, fault⟩ := by
    intro before part after fault hparts hbefore hpart hfault
    obtain ⟨xs, hxs⟩ : ∃ xs, readAll grammar reading (numbered before) = .ok xs :=
      exists_readAll_iff.mpr hbefore
    rw [hparts, readAll_append, hxs, readAll_cons_of_error hpart hfault, join, GrammarError.after,
      Nat.add_comm]
  constructor
  · intro h
    classical
    -- if no part were at fault, the batch would be read
    cases hfirst : parts.find? fun p => ¬(Text.trim p ≠ [] → ∃ x, reading (Text.trim p) = .ok x) with
    | none =>
      have hall : ∀ p ∈ parts, Text.trim p ≠ [] → ∃ x, reading (Text.trim p) = .ok x := by
        intro p hp
        simpa using List.find?_eq_none.mp hfirst p hp
      obtain ⟨xs, hxs⟩ : ∃ xs, readAll grammar reading (numbered parts) = .ok xs :=
        exists_readAll_iff.mpr hall
      rw [hxs] at h
      cases h
    | some part =>
      obtain ⟨hpart, before, after, hparts, hbefore⟩ := List.find?_eq_some_iff_append.mp hfirst
      have hnot : Text.trim part ≠ [] ∧ ∀ x, reading (Text.trim part) ≠ .ok x := by
        simpa using hpart
      have hreads : ∀ p ∈ before, Text.trim p ≠ [] → ∃ x, reading (Text.trim p) = .ok x := by
        intro p hp hne
        have heither : Text.trim p = [] ∨ ∃ x, reading (Text.trim p) = .ok x := by
          simpa using hbefore p hp
        exact heither.resolve_left hne
      cases hreading : reading (Text.trim part) with
      | ok x => exact absurd hreading (hnot.2 x)
      | error fault =>
        have herror := hfails hparts hreads hnot.1 hreading
        rw [h] at herror
        exact ⟨before, part, after, fault, hparts, hreads, hnot.1, hreading, Except.error.inj herror⟩
  · rintro ⟨before, part, after, fault, hparts, hbefore, hpart, hfault, rfl⟩
    exact hfails hparts hbefore hpart hfault

end Record

end BuildStep
