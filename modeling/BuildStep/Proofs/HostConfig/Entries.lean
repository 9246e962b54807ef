import BuildStep.SortedMap
import Mathlib.Data.List.Dedup
import Mathlib.Data.List.Induction
import Mathlib.Data.List.Nodup
import Mathlib.Data.List.Perm.Basic

/-!
# The entries of a sorted map

A map that is built from entries with different keys has just these entries, and the order in which
they came does not matter: a sorted map is told apart from another by the entries that are in it.

## Key results

- `mem_entries_ofList`: nothing but the given entries comes into a map
- `entries_ofList_perm`: if their keys are different, all of them do
- `eq_of_perm`, `keys_eq_of_perm`: order does not tell sorted maps apart
- `mem_entries_iff`, `eq_of_get?`: the entries are what is found, and what is found is the map
- `get?_overlay`, `ofList_append`: a map that is laid over another
- `get?_ofList`, `size_ofList`: the last value written under each key is what a map holds
-/

namespace BuildStep.SortedMap

open scoped List

variable {κ ν : Type} [Ord κ]

/-- Under a new key an entry is added to those there are. -/
theorem insertInto_perm [Std.LawfulEqOrd κ] {k : κ} {v : ν} {entries : List (κ × ν)}
    (h : ∀ entry ∈ entries, entry.1 ≠ k) : (insertInto k v entries).Perm ((k, v) :: entries) := by
  induction entries with
  | nil => rfl
  | cons entry rest ih =>
    have hrest := ih fun e he => h e (List.mem_cons_of_mem entry he)
    simp only [insertInto]
    split
    · rfl
    · rename_i heq
      have hk : k = entry.1 := Std.LawfulEqCmp.eq_of_compare heq
      exact absurd hk.symm (h entry List.mem_cons_self)
    · calc entry :: insertInto k v rest
          _ ~ entry :: (k, v) :: rest := hrest.cons entry
          _ ~ (k, v) :: entry :: rest := .swap _ _ rest

/-! ## Keys in order -/

theorem pairwise_keys (m : SortedMap κ ν) :
    (m.entries.map Prod.fst).Pairwise fun a b => compare a b = .lt :=
  List.pairwise_map.mpr m.sorted

variable [Std.TransOrd κ]

/-- No key comes twice. -/
theorem nodup_keys (m : SortedMap κ ν) : (m.entries.map Prod.fst).Nodup := by
  refine m.pairwise_keys.imp ?_
  rintro a b hlt rfl
  have heq : compare a a = .eq := Std.ReflCmp.compare_self
  rw [hlt] at heq
  cases heq

/-- An entry of a map is what is found under its key. -/
theorem mem_entries_iff [Std.LawfulEqOrd κ] {m : SortedMap κ ν} {k : κ} {v : ν} :
    (k, v) ∈ m.entries ↔ m.get? k = some v := by
  have hkey {entry : κ × ν}
      (h : m.entries.find? (fun entry => compare k entry.1 == .eq) = some entry) : k = entry.1 := by
    simpa using List.find?_some h
  rw [get?, Option.map_eq_some_iff]
  constructor
  · intro h
    have hfound : (m.entries.find? fun entry => compare k entry.1 == .eq).isSome := by
      rw [List.find?_isSome]
      exact ⟨_, h, by simp⟩
    obtain ⟨entry, hentry⟩ := Option.isSome_iff_exists.mp hfound
    -- an entry with the same key is the same entry
    have hsame := List.inj_on_of_nodup_map m.nodup_keys (List.mem_of_find?_eq_some hentry) h
      (hkey hentry).symm
    exact ⟨entry, hentry, congrArg Prod.snd hsame⟩
  · rintro ⟨entry, hentry, rfl⟩
    rw [hkey hentry]
    exact List.mem_of_find?_eq_some hentry

/-- Maps with the same entries in any order are the same map. -/
theorem eq_of_perm {m m' : SortedMap κ ν} (h : m.entries.Perm m'.entries) : m = m' := by
  apply ext_entries
  refine List.Perm.eq_of_pairwise ?_ m.sorted m'.sorted h
  intro a b _ _ hab hba
  have hgt := Std.OrientedCmp.gt_of_lt hba
  rw [hab] at hgt
  cases hgt

/-- So it is with keys alone. -/
theorem keys_eq_of_perm {ω : Type} {m : SortedMap κ ν} {m' : SortedMap κ ω}
    (h : (m.entries.map Prod.fst).Perm (m'.entries.map Prod.fst)) :
    m.entries.map Prod.fst = m'.entries.map Prod.fst := by
  refine List.Perm.eq_of_pairwise ?_ m.pairwise_keys m'.pairwise_keys h
  intro a b _ _ hab hba
  have hgt := Std.OrientedCmp.gt_of_lt hba
  rw [hab] at hgt
  cases hgt

/-! ## What a map is built from -/

variable [Std.LawfulEqOrd κ]

/-- What is written into a map one after the other is all that is added to it. -/
theorem mem_entries_foldl {l : List (κ × ν)} {m : SortedMap κ ν} {x : κ × ν}
    (h : x ∈ (l.foldl (fun m entry => m.insert entry.1 entry.2) m).entries) :
    x ∈ m.entries ∨ x ∈ l := by
  induction l generalizing m with
  | nil => exact .inl h
  | cons entry l ih =>
    rcases ih h with h | h
    · rcases mem_insertInto h with rfl | h
      · exact .inr List.mem_cons_self
      · exact .inl h
    · exact .inr (List.mem_cons_of_mem entry h)

theorem mem_entries_ofList {l : List (κ × ν)} {x : κ × ν} (h : x ∈ (ofList l).entries) : x ∈ l := by
  rcases mem_entries_foldl h with h | h
  · cases h
  · exact h

theorem entries_foldl_perm {l : List (κ × ν)} {m : SortedMap κ ν}
    (h : ((m.entries ++ l).map Prod.fst).Nodup) :
    (l.foldl (fun m entry => m.insert entry.1 entry.2) m).entries.Perm (m.entries ++ l) := by
  induction l generalizing m with
  | nil =>
    rw [List.append_nil]
    rfl
  | cons entry l ih =>
    have hnew : ∀ e ∈ m.entries, e.1 ≠ entry.1 := by
      rw [List.map_append, List.map_cons] at h
      intro e he
      have hdisjoint := List.nodup_append.mp h
      exact hdisjoint.2.2 e.1 (List.mem_map_of_mem he) entry.1 List.mem_cons_self
    have hinsert : ((m.insert entry.1 entry.2).entries ++ l).Perm (m.entries ++ entry :: l) :=
      calc (m.insert entry.1 entry.2).entries ++ l
          _ ~ (entry :: m.entries) ++ l := (insertInto_perm hnew).append_right l
          _ ~ m.entries ++ entry :: l := List.perm_middle.symm
    have hnodup := (hinsert.map Prod.fst).nodup_iff.mpr h
    exact (ih hnodup).trans hinsert

/-- A map that is built from entries with different keys has these entries. -/
theorem entries_ofList_perm {l : List (κ × ν)} (h : (l.map Prod.fst).Nodup) :
    (ofList l).entries.Perm l :=
  entries_foldl_perm (m := empty) h

/-- A map can be built again from its entries in any order. -/
theorem ofList_of_perm {m : SortedMap κ ν} {l : List (κ × ν)} (h : l.Perm m.entries) :
    ofList l = m := by
  have hnodup : (l.map Prod.fst).Nodup := (h.map Prod.fst).nodup_iff.mpr m.nodup_keys
  exact eq_of_perm ((entries_ofList_perm hnodup).trans h)

/-! ## One map over another -/

/-- Maps in which the same is found are the same map. -/
theorem eq_of_get? {m m' : SortedMap κ ν} (h : ∀ k, m.get? k = m'.get? k) : m = m' := by
  have hnodup : ∀ m : SortedMap κ ν, m.entries.Nodup := fun m => m.nodup_keys.of_map Prod.fst
  apply eq_of_perm
  rw [List.perm_ext_iff_of_nodup (hnodup m) (hnodup m')]
  rintro ⟨k, v⟩
  rw [mem_entries_iff, mem_entries_iff, h]

/-- The first map with all entries of the second written into it. -/
def overlay (m m' : SortedMap κ ν) : SortedMap κ ν :=
  m'.entries.foldl (fun m entry => m.insert entry.1 entry.2) m

theorem get?_insert [DecidableEq κ] (m : SortedMap κ ν) (k k' : κ) (v : ν) :
    (m.insert k v).get? k' = if k' = k then some v else m.get? k' := by
  split
  · rename_i hk
    rw [hk, get?_insert_self]
  · rename_i hk
    exact get?_insert_of_ne m hk v

theorem ofList_concat (l : List (κ × ν)) (entry : κ × ν) :
    ofList (l ++ [entry]) = (ofList l).insert entry.1 entry.2 := by
  simp [ofList]

/-- What is written into a map hides what was there, and nothing else. -/
theorem get?_foldl_insert (m : SortedMap κ ν) (l : List (κ × ν)) (k : κ) :
    (l.foldl (fun m entry => m.insert entry.1 entry.2) m).get? k =
      ((ofList l).get? k).or (m.get? k) := by
  classical
  -- the last entry is the one that is found first
  induction l using List.reverseRecOn with
  | nil => rfl
  | append_singleton l entry ih =>
    rw [List.foldl_append, List.foldl_cons, List.foldl_nil, ofList_concat, get?_insert, get?_insert,
      ih]
    split <;> rfl

/-- In a map that is laid over another its own entries are found first. -/
theorem get?_overlay (m m' : SortedMap κ ν) (k : κ) :
    (overlay m m').get? k = (m'.get? k).or (m.get? k) := by
  rw [overlay, get?_foldl_insert, ofList_of_perm (List.Perm.refl m'.entries)]

/-- A map can be built in two parts. -/
theorem ofList_append (l l' : List (κ × ν)) :
    ofList (l ++ l') = overlay (ofList l) (ofList l') := by
  apply eq_of_get?
  intro k
  rw [get?_overlay, ofList, List.foldl_append, get?_foldl_insert]
  rfl

/-! ## The last value under each key -/

variable [DecidableEq κ]

/-- Under a key the value is found that was written under it last. -/
theorem get?_ofList (l : List (κ × ν)) (k : κ) :
    (ofList l).get? k = (l.filter (·.1 = k)).getLast?.map Prod.snd := by
  induction l using List.reverseRecOn with
  | nil => rfl
  | append_singleton l entry ih =>
    rw [ofList_concat, get?_insert, ih, List.filter_append]
    by_cases hk : k = entry.1
    · simp [hk]
    · -- an entry with another key is not among those that count
      have hne : entry.1 ≠ k := fun h => hk h.symm
      simp [hk, hne]

/-- A map has the keys that were written, each once. -/
theorem keys_ofList_perm (l : List (κ × ν)) :
    ((ofList l).entries.map Prod.fst).Perm (l.map Prod.fst).dedup := by
  rw [List.perm_ext_iff_of_nodup (nodup_keys _) (List.nodup_dedup _)]
  intro k
  rw [List.mem_dedup]
  constructor
  · intro hk
    obtain ⟨entry, hentry, rfl⟩ := List.mem_map.mp hk
    exact List.mem_map_of_mem (mem_entries_ofList hentry)
  · intro hk
    obtain ⟨entry, hentry, rfl⟩ := List.mem_map.mp hk
    -- the key was written, so there is a last time
    have hwritten : entry ∈ l.filter (·.1 = entry.1) := by simp [hentry]
    obtain ⟨last, hlast⟩ :=
      Option.ne_none_iff_exists'.mp (mt List.getLast?_eq_none_iff.mp (List.ne_nil_of_mem hwritten))
    have hfound : (ofList l).get? entry.1 = some last.2 := by rw [get?_ofList, hlast]; rfl
    exact List.mem_map.mpr ⟨_, mem_entries_iff.mpr hfound, rfl⟩

/-- So there are as many entries as different keys. -/
theorem size_ofList (l : List (κ × ν)) : (ofList l).size = (l.map Prod.fst).dedup.length := by
  rw [← (keys_ofList_perm l).length_eq, List.length_map, size]

end BuildStep.SortedMap
