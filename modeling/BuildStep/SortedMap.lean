/-! # Maps that are sorted by key

A `SortedMap` lists its entries in strictly ascending order of their keys, so two maps with the same
entries are the same map.  Writing under a key that is there already replaces its value.

* `SortedMap.get?_insert_self` and `SortedMap.get?_insert_of_ne` say what a write does to
  look-ups.
* `SortedMap.exchange_eq`: a write that gives back what it replaces is a look-up and a write. -/

namespace BuildStep

/-- A finite map whose entries stand in ascending order of their keys. -/
structure SortedMap (κ : Type) (ν : Type) [Ord κ] where
  entries : List (κ × ν)
  sorted : entries.Pairwise fun a b => compare a.1 b.1 = .lt

namespace SortedMap

variable {κ ν : Type} [Ord κ]

/-- Puts an entry where it belongs in a sorted list, in place of one with the same key. -/
def insertInto (k : κ) (v : ν) : List (κ × ν) → List (κ × ν)
  | [] => [(k, v)]
  | entry :: rest =>
    match compare k entry.1 with
    | .lt => (k, v) :: entry :: rest
    | .eq => (k, v) :: rest
    | .gt => entry :: insertInto k v rest

theorem mem_insertInto {k : κ} {v : ν} {x : κ × ν} {entries : List (κ × ν)}
    (h : x ∈ insertInto k v entries) : x = (k, v) ∨ x ∈ entries := by
  induction entries with
  | nil => simpa [insertInto] using h
  | cons entry rest ih =>
    simp only [insertInto] at h
    split at h
    · simpa using h
    · rcases List.mem_cons.1 h with h | h
      · exact .inl h
      · exact .inr (List.mem_cons_of_mem _ h)
    · rcases List.mem_cons.1 h with h | h
      · exact .inr (h ▸ List.mem_cons_self)
      · exact (ih h).imp_right (List.mem_cons_of_mem _)

theorem sorted_insertInto [Std.TransOrd κ] [Std.LawfulEqOrd κ] (k : κ) (v : ν)
    {entries : List (κ × ν)} (h : entries.Pairwise fun a b => compare a.1 b.1 = .lt) :
    (insertInto k v entries).Pairwise fun a b => compare a.1 b.1 = .lt := by
  induction entries with
  | nil => simp [insertInto]
  | cons entry rest ih =>
    obtain ⟨hfirst, hrest⟩ := List.pairwise_cons.1 h
    simp only [insertInto]
    split
    · rename_i hlt
      refine List.pairwise_cons.2 ⟨fun x hx => ?_, h⟩
      rcases List.mem_cons.1 hx with rfl | hx
      · exact hlt
      · exact Std.TransCmp.lt_trans hlt (hfirst x hx)
    · rename_i heq
      have hk : k = entry.1 := Std.LawfulEqCmp.eq_of_compare heq
      exact List.pairwise_cons.2 ⟨fun x hx => hk ▸ hfirst x hx, hrest⟩
    · rename_i hgt
      refine List.pairwise_cons.2 ⟨fun x hx => ?_, ih hrest⟩
      rcases mem_insertInto hx with rfl | hx
      · exact Std.OrientedCmp.lt_of_gt hgt
      · exact hfirst x hx

/-- The map without entries. -/
def empty : SortedMap κ ν := ⟨[], List.Pairwise.nil⟩

/-- Writes a value under a key. -/
def insert [Std.TransOrd κ] [Std.LawfulEqOrd κ] (m : SortedMap κ ν) (k : κ) (v : ν) :
    SortedMap κ ν :=
  ⟨insertInto k v m.entries, sorted_insertInto k v m.sorted⟩

/-- Puts an entry where it belongs in a sorted list, and gives the value whose place it takes. -/
def exchangeInto (k : κ) (v : ν) : List (κ × ν) → Option ν × List (κ × ν)
  | [] => (none, [(k, v)])
  | entry :: rest =>
    match compare k entry.1 with
    | .lt => (none, (k, v) :: entry :: rest)
    | .eq => (some entry.2, (k, v) :: rest)
    | .gt =>
      match exchangeInto k v rest with
      | (replaced, rest) => (replaced, entry :: rest)

theorem exchangeInto_snd (k : κ) (v : ν) (entries : List (κ × ν)) :
    (exchangeInto k v entries).2 = insertInto k v entries := by
  induction entries with
  | nil => rfl
  | cons entry rest ih =>
    simp only [exchangeInto, insertInto]
    split
    · rfl
    · rfl
    · rw [← ih]

/-- Writes a value under a key, and gives back the value that it replaces. -/
def exchange [Std.TransOrd κ] [Std.LawfulEqOrd κ] (m : SortedMap κ ν) (k : κ) (v : ν) :
    Option ν × SortedMap κ ν :=
  ((exchangeInto k v m.entries).1, ⟨(exchangeInto k v m.entries).2, by
    rw [exchangeInto_snd]
    exact sorted_insertInto k v m.sorted⟩)

/-- The value under a key. -/
def get? (m : SortedMap κ ν) (k : κ) : Option ν :=
  (m.entries.find? fun entry => compare k entry.1 == .eq).map Prod.snd

/-- Number of entries. -/
def size (m : SortedMap κ ν) : Nat := m.entries.length

/-- There are no entries. -/
def isEmpty (m : SortedMap κ ν) : Bool := m.entries.isEmpty

/-- The map that results from writing the given entries one after the other. -/
def ofList [Std.TransOrd κ] [Std.LawfulEqOrd κ] (entries : List (κ × ν)) : SortedMap κ ν :=
  entries.foldl (fun m entry => m.insert entry.1 entry.2) empty

/-- Maps with the same entries are equal. -/
theorem ext_entries {m m' : SortedMap κ ν} (h : m.entries = m'.entries) : m = m' := by
  cases m; cases m'; simp_all

theorem find?_insertInto_self [Std.TransOrd κ] [Std.LawfulEqOrd κ] (k : κ) (v : ν)
    (entries : List (κ × ν)) :
    (insertInto k v entries).find? (fun entry => compare k entry.1 == .eq) = some (k, v) := by
  induction entries with
  | nil => simp [insertInto]
  | cons entry rest ih =>
    simp only [insertInto]
    split
    · simp
    · simp
    · rename_i hgt
      simp [hgt, ih]

theorem find?_insertInto_of_ne [Std.TransOrd κ] [Std.LawfulEqOrd κ] {k k' : κ} (h : k' ≠ k) (v : ν)
    (entries : List (κ × ν)) :
    (insertInto k v entries).find? (fun entry => compare k' entry.1 == .eq) =
      entries.find? (fun entry => compare k' entry.1 == .eq) := by
  have hne : (compare k' k == .eq) = false := by simpa using h
  induction entries with
  | nil => simp [insertInto, hne]
  | cons entry rest ih =>
    simp only [insertInto]
    split
    · simp [List.find?_cons, hne]
    · rename_i heq
      have hk : k = entry.1 := Std.LawfulEqCmp.eq_of_compare heq
      simp [hne, ← hk]
    · simp [List.find?_cons, ih]

/-- What an entry takes the place of is what is found under its key: behind a greater key there is
none that is equal. -/
theorem exchangeInto_fst [Std.TransOrd κ] [Std.LawfulEqOrd κ] (k : κ) (v : ν)
    {entries : List (κ × ν)} (h : entries.Pairwise fun a b => compare a.1 b.1 = .lt) :
    (exchangeInto k v entries).1 =
      (entries.find? fun entry => compare k entry.1 == .eq).map Prod.snd := by
  induction entries with
  | nil => rfl
  | cons entry rest ih =>
    obtain ⟨hfirst, hrest⟩ := List.pairwise_cons.1 h
    simp only [exchangeInto]
    split
    · rename_i hlt
      have hnone : rest.find? (fun entry => compare k entry.1 == .eq) = none := by
        rw [List.find?_eq_none]
        intro x hx
        rw [Std.TransCmp.lt_trans hlt (hfirst x hx)]
        decide
      simp [hlt, hnone]
    · rename_i heq
      simp [heq]
    · rename_i hgt
      simp [hgt, ih hrest]

/-- A write that gives back what it replaces is a look-up and a write. -/
theorem exchange_eq [Std.TransOrd κ] [Std.LawfulEqOrd κ] (m : SortedMap κ ν) (k : κ) (v : ν) :
    m.exchange k v = (m.get? k, m.insert k v) := by
  refine Prod.ext (exchangeInto_fst k v m.sorted) ?_
  exact ext_entries (exchangeInto_snd k v m.entries)

theorem get?_insert_self [Std.TransOrd κ] [Std.LawfulEqOrd κ] (m : SortedMap κ ν) (k : κ) (v : ν) :
    (m.insert k v).get? k = some v := by
  simp [get?, insert, find?_insertInto_self]

theorem get?_insert_of_ne [Std.TransOrd κ] [Std.LawfulEqOrd κ] (m : SortedMap κ ν) {k k' : κ}
    (h : k' ≠ k) (v : ν) : (m.insert k v).get? k' = m.get? k' := by
  simp [get?, insert, find?_insertInto_of_ne h]

end SortedMap

end BuildStep
