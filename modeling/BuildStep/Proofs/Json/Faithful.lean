import BuildStep.Proofs.Json.Compact
import Mathlib.Data.List.Basic

/-!
# Values of records

A record is written with a function from values to trees and read with one from trees to values.  The
two belong together if whatever is written is well formed and is read as what it was.  For an object
this is so if no two of its fields have the same name: then each field is found as it was written, and
a field that was left out is not found.

## Key results

- `Faithful`: reading undoes writing
- `faithful_ofText`, `faithful_port`, `faithful_choice`, `Faithful.array`: for the parts of records
- `fields?_ofFields`: the fields of an object are found as they were written
-/

namespace BuildStep.JsonTree

variable {α : Type} {write : α → JsonTree} {read? : JsonTree → Option α}

/-- What is written can be read, and is read as what it was. -/
structure Faithful (write : α → JsonTree) (read? : JsonTree → Option α) : Prop where
  wellFormed : ∀ x, (write x).WellFormed
  reads : ∀ x, read? (write x) = some x

/-! ## Strings and numbers -/

theorem faithful_ofText : Faithful ofText text? where
  wellFormed t := .string (JsonLiteral.isWellFormed_escape t)
  reads t := JsonLiteral.unescape?_escape t

/-- A choice is written as its name. -/
theorem faithful_choice {name : α → Text} {ofName? : Text → Option α}
    (h : ∀ x, ofName? (name x) = some x) :
    Faithful (fun x => ofText (name x)) fun j => j.choice?.bind ofName? where
  wellFormed x := faithful_ofText.wellFormed (name x)
  reads x := by
    have hchoice : (ofText (name x)).choice? = some (name x) :=
      JsonLiteral.unescape?_escape (name x)
    rw [hchoice, Option.bind_some, h]

/-- Every port is small enough to be read as one. -/
theorem faithful_port : Faithful (fun p : UInt16 => ofNat p.toNat) port? where
  wellFormed p := .number p.toNat
  reads p := by
    have hmax : p.toNat ≤ maxPort := Nat.le_of_lt_succ p.toNat_lt
    simp [ofNat, port?, Decimal.read?_digits, Decimal.atMost?, hmax]

/-- A text that may be absent is written, or `null` is. -/
theorem faithful_ofText? : Faithful ofText? fun j => optionalText? (some j) where
  wellFormed t := by
    cases t with
    | none => exact .null
    | some t => exact faithful_ofText.wellFormed t
  reads t := by
    cases t with
    | none => rfl
    | some t => exact congrArg (Option.map some) (faithful_ofText.reads t)

/-- A text that may be absent is read so if its field is left out. -/
theorem optionalText?_map_ofText (t : Option Text) : optionalText? (t.map ofText) = some t := by
  cases t with
  | none => rfl
  | some t => exact faithful_ofText?.reads (some t)

/-! ## Arrays -/

theorem mapM_eq_some_map {β γ : Type} {f : β → Option γ} {g : β → γ} (h : ∀ x, f x = some (g x))
    (xs : List β) : xs.mapM f = some (xs.map g) := by
  have hf : f = fun x => pure (g x) := funext h
  rw [hf, List.mapM_pure]
  rfl

theorem mapM_map_eq_some {β γ : Type} {f : β → γ} {g : γ → Option β} (h : ∀ x, g (f x) = some x)
    (xs : List β) : (xs.map f).mapM g = some xs := by
  rw [List.mapM_map, mapM_eq_some_map (f := g ∘ f) (g := id) h, List.map_id]

theorem Faithful.array (h : Faithful write read?) :
    Faithful (fun xs : List α => .array (xs.map write))
      fun j => j.elements?.bind (List.mapM read?) where
  wellFormed xs := by
    refine .array fun v hv => ?_
    obtain ⟨x, -, rfl⟩ := List.mem_map.mp hv
    exact h.wellFormed x
  reads xs := mapM_map_eq_some h.reads xs

theorem faithful_ofTexts : Faithful ofTexts texts? :=
  faithful_ofText.array

/-! ## Objects -/

/-- An object with texts for names. -/
theorem wellFormed_object {members : List (Text × JsonTree)} (h : ∀ m ∈ members, m.2.WellFormed) :
    WellFormed (.object (members.map fun m => (JsonLiteral.escape m.1, m.2))) := by
  refine .object ?_ ?_
  · intro m hm
    obtain ⟨n, -, rfl⟩ := List.mem_map.mp hm
    exact JsonLiteral.isWellFormed_escape n.1
  · intro m hm
    obtain ⟨n, hn, rfl⟩ := List.mem_map.mp hm
    exact h n hn

/-- The names of members are read as they were written. -/
theorem named?_map_escape (members : List (Text × JsonTree)) :
    named? (members.map fun m => (JsonLiteral.escape m.1, m.2)) = some members := by
  refine mapM_map_eq_some ?_ members
  intro m
  rw [JsonLiteral.unescape?_escape]
  rfl

/-! ## Fields -/

/-- The members that fields are, with their names as they stand for themselves. -/
def memberOf (field : String × JsonTree) : Text × JsonTree :=
  (field.1.toList, field.2)

theorem ofFields_eq (fields : List (String × JsonTree)) :
    ofFields fields =
      .object ((fields.map memberOf).map fun m => (JsonLiteral.escape m.1, m.2)) := by
  rw [List.map_map]
  rfl

theorem wellFormed_ofFields {fields : List (String × JsonTree)}
    (h : fields.Forall fun field => field.2.WellFormed) : (ofFields fields).WellFormed := by
  rw [ofFields_eq]
  refine wellFormed_object fun m hm => ?_
  obtain ⟨field, hfield, rfl⟩ := List.mem_map.mp hm
  exact List.forall_iff_forall_mem.mp h field hfield

/-- If no two fields have the same name, at most one member has a given name. -/
theorem filter_map_memberOf {fields : List (String × JsonTree)} (h : (fields.map Prod.fst).Nodup)
    (name : String) :
    (fields.map memberOf).filter (fun m => m.1 = name.toList) =
      ((fields.lookup name).map fun v => (name.toList, v)).toList := by
  induction fields with
  | nil => rfl
  | cons field fields ih =>
    obtain ⟨key, v⟩ := field
    obtain ⟨hnew, hrest⟩ := List.nodup_cons.mp h
    have hothers := ih hrest
    by_cases hname : name = key
    · -- the name is not used again
      subst hname
      have hnone : fields.lookup name = none := by
        rw [List.lookup_eq_none_iff]
        intro other hother
        have hused : other.1 ∈ fields.map Prod.fst := List.mem_map_of_mem hother
        rw [bne_iff_ne]
        rintro rfl
        exact hnew hused
      rw [hnone] at hothers
      simp [memberOf, hothers]
    · have hother : ¬key.toList = name.toList := fun heq => hname (String.toList_inj.mp heq).symm
      simp [memberOf, hothers, hother, List.lookup_cons, beq_false_of_ne hname]

/-- So each field is found under its name. -/
theorem field?_map_memberOf {fields : List (String × JsonTree)} (h : (fields.map Prod.fst).Nodup)
    (name : String) : field? (fields.map memberOf) name = some (fields.lookup name) := by
  rw [field?, filter_map_memberOf h]
  cases fields.lookup name with
  | none => rfl
  | some v => rfl

/-- The fields of an object are found as they were written, in the order in which they are asked for. -/
theorem fields?_ofFields {fields : List (String × JsonTree)} (h : (fields.map Prod.fst).Nodup)
    (names : List String) (arity : Arity) :
    (ofFields fields).fields? names arity = some (names.map fun name => fields.lookup name) := by
  rw [ofFields_eq, fields?, named?_map_escape]
  simp only [Option.bind_eq_bind, Option.bind_some]
  exact mapM_eq_some_map (field?_map_memberOf h) names

end BuildStep.JsonTree
