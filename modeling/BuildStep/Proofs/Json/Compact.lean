import BuildStep.Json.Parser

/-!
# Values that are written read back

A value is written without blanks and read with any, so the reader must find the same places in the
text without them: where a literal ends, where a number ends, and whether an array or an object is
empty.  A number is the only value that has no end of its own; it ends at what can follow a value, and
that is none of its characters.

## Key results

- `cutQuote?_append`: a literal ends at the quote that was written after it
- `readNumber?_digits`: a numeral ends at what follows a value
- `Legible`: what is read back wherever it is written, one lemma for each kind of value
- `parse?_compact`: a value that is written reads back
-/

namespace BuildStep.JsonTree

open Decimal (ne_of_isDigit)

/-! ## Where values end -/

/-- What may follow a value: the end of the text, a comma, or the end of an array or an object. -/
def Follows (rest : Text) : Prop :=
  ∀ c, rest.head? = some c → c = ',' ∨ c = ']' ∨ c = '\x7d'

theorem follows_nil : Follows [] := by
  intro c hc
  cases hc

theorem follows_compactElements (elements : List JsonTree) (rest : Text) :
    Follows (compactElements elements ++ rest) := by
  intro c hc
  cases elements with
  | nil => cases hc; exact .inr (.inl rfl)
  | cons v elements => cases hc; exact .inl rfl

theorem follows_compactMembers (members : List (Text × JsonTree)) (rest : Text) :
    Follows (compactMembers members ++ rest) := by
  intro c hc
  cases members with
  | nil => cases hc; exact .inr (.inr rfl)
  | cons m members => cases hc; exact .inl rfl

/-- Nothing is there, or one of the three characters. -/
theorem Follows.cases {rest : Text} (h : Follows rest) :
    rest = [] ∨ ∃ c t, rest = c :: t ∧ (c = ',' ∨ c = ']' ∨ c = '\x7d') := by
  cases rest with
  | nil => exact .inl rfl
  | cons c t => exact .inr ⟨c, t, rfl, h c rfl⟩

/-! ## Literals -/

/-- Characters that are neither quotes nor backslashes are passed over. -/
theorem cutQuote?_append_plain {plain : Text} (h : ∀ c ∈ plain, c ≠ '"' ∧ c ≠ '\\') (t : Text) :
    cutQuote? (plain ++ t) = (cutQuote? t).map fun p => (plain ++ p.1, p.2) := by
  induction plain with
  | nil => simp
  | cons c plain ih =>
    obtain ⟨hquote, hslash⟩ := h c List.mem_cons_self
    have hstep : cutQuote? (c :: (plain ++ t)) =
        (cutQuote? (plain ++ t)).map fun p => (c :: p.1, p.2) := by
      rw [cutQuote?]
      · exact hquote
      · intro c' rest' h
        exact absurd h hslash
    rw [List.cons_append, hstep, ih fun x hx => h x (List.mem_cons_of_mem c hx), Option.map_map]
    rfl

/-- No digit of an escape is a quote or a backslash. -/
theorem plain_of_unitOf? {a b c d : Char} {n : Nat} (h : JsonLiteral.unitOf? a b c d = some n) :
    ∀ x ∈ [a, b, c, d], x ≠ '"' ∧ x ≠ '\\' := by
  have hplain : ∀ x m, JsonLiteral.hexValue? x = some m → x ≠ '"' ∧ x ≠ '\\' := by
    intro x m hx
    constructor
    · rintro rfl; cases hx
    · rintro rfl; cases hx
  simp only [JsonLiteral.unitOf?, Option.bind_eq_bind, Option.bind_eq_some_iff] at h
  obtain ⟨_, ha, _, hb, _, hc, _, hd, -⟩ := h
  simpa using ⟨hplain a _ ha, hplain b _ hb, hplain c _ hc, hplain d _ hd⟩

/-- A well-formed literal ends at the first quote after it. -/
theorem cutQuote?_append {literal : Text} (h : JsonLiteral.isWellFormed literal = true)
    (rest : Text) : cutQuote? (literal ++ '"' :: rest) = some (literal, rest) := by
  obtain ⟨pieces, hpieces⟩ := Option.isSome_iff_exists.mp h
  clear h
  -- the literal is taken apart as it is read; the fourth case is a character that it cannot have
  fun_induction JsonLiteral.pieces? literal generalizing pieces with
  | case1 => rfl
  | case2 a b c d t ih =>
    obtain ⟨n, hunit, hrest⟩ := Option.bind_eq_some_iff.mp hpieces
    obtain ⟨ps, ht, -⟩ := Option.bind_eq_some_iff.mp hrest
    -- the backslash takes one character with it, and the digits are passed over
    have hdigits := cutQuote?_append_plain (plain_of_unitOf? hunit) (t ++ '"' :: rest)
    rw [ih ps ht] at hdigits
    simp only [List.cons_append, List.nil_append] at hdigits ⊢
    rw [cutQuote?, hdigits]
    rfl
  | case3 e t hx ih =>
    obtain ⟨n, -, hrest⟩ := Option.bind_eq_some_iff.mp hpieces
    obtain ⟨ps, ht, -⟩ := Option.bind_eq_some_iff.mp hrest
    rw [List.cons_append, List.cons_append, cutQuote?, ih ps ht]
    rfl
  | case4 => cases hpieces
  | case5 c t _ _ hplain ih =>
    obtain ⟨ps, ht, -⟩ := Option.bind_eq_some_iff.mp hpieces
    have hc : ∀ x ∈ [c], x ≠ '"' ∧ x ≠ '\\' := by
      simp only [List.mem_singleton, forall_eq]
      exact ⟨fun hq => hplain (.inl hq), fun hs => hplain (.inr (.inl hs))⟩
    have hpassed := cutQuote?_append_plain hc (t ++ '"' :: rest)
    rw [ih ps ht] at hpassed
    exact hpassed

theorem readLiteral?_append {literal : Text} (h : JsonLiteral.isWellFormed literal = true)
    (rest : Text) : readLiteral? (literal ++ '"' :: rest) = some (literal, rest) := by
  rw [readLiteral?, cutQuote?_append h, Option.filter_some, if_pos h]

/-! ## Numerals -/

/-- Digits end where something else begins. -/
theorem readDigits?_append {digits rest : Text} (hne : digits ≠ [])
    (hdigits : ∀ c ∈ digits, c.isDigit = true) (h : Follows rest) :
    readDigits? (digits ++ rest) = some (digits, rest) := by
  have hend : rest.takeWhile Char.isDigit = [] ∧ rest.dropWhile Char.isDigit = rest := by
    obtain rfl | ⟨c, t, rfl, rfl | rfl | rfl⟩ := h.cases
    all_goals exact ⟨rfl, rfl⟩
  have htake : (digits ++ rest).takeWhile Char.isDigit = digits := by
    rw [List.takeWhile_append_of_pos hdigits, hend.1, List.append_nil]
  have hdrop : (digits ++ rest).dropWhile Char.isDigit = rest := by
    rw [List.dropWhile_append_of_pos hdigits, hend.2]
  rw [readDigits?, htake, hdrop, if_neg (by simpa using hne)]

/-- The whole part of a number that has nothing else is its numeral. -/
theorem readWhole?_digits (n : Nat) {rest : Text} (h : Follows rest) :
    readWhole? (Decimal.digits n ++ rest) = some (Decimal.digits n, rest) := by
  rcases Nat.eq_zero_or_pos n with rfl | hpos
  · rfl
  · obtain ⟨c, t, hcons, hzero⟩ := Decimal.digits_eq_cons hpos
    have hread := readDigits?_append (Decimal.digits_ne_nil n)
      (fun _ => Decimal.isDigit_of_mem_digits) h
    rw [hcons] at hread ⊢
    rwa [List.cons_append, readWhole?]
    intro _ hc
    exact hzero (List.cons.inj hc).1

/-- A number that begins with a digit has no sign. -/
theorem readSign_of_isDigit {c : Char} (h : c.isDigit = true) (t : Text) :
    readSign (· = '-') (c :: t) = ([], c :: t) := by
  have hne : c ≠ '-' := ne_of_isDigit h (by decide)
  simp [readSign, hne]

/-- Numerals begin with a digit. -/
theorem exists_digits_eq (n : Nat) : ∃ c t, Decimal.digits n = c :: t ∧ c.isDigit = true := by
  obtain ⟨c, t, hcons⟩ := List.exists_cons_of_ne_nil (Decimal.digits_ne_nil n)
  exact ⟨c, t, hcons, Decimal.isDigit_of_mem_digits (by rw [hcons]; exact List.mem_cons_self)⟩

/-- A numeral is a number without a sign, and neither a fraction nor an exponent follows it. -/
theorem readNumber?_digits (n : Nat) {rest : Text} (h : Follows rest) :
    readNumber? (Decimal.digits n ++ rest) = some (Decimal.digits n, rest) := by
  have hsign : readSign (· = '-') (Decimal.digits n ++ rest) = ([], Decimal.digits n ++ rest) := by
    obtain ⟨c, t, hcons, hc⟩ := exists_digits_eq n
    rw [hcons, List.cons_append, readSign_of_isDigit hc]
  have hfraction : readFraction? rest = some ([], rest) := by
    obtain rfl | ⟨c, t, rfl, rfl | rfl | rfl⟩ := h.cases
    all_goals rfl
  have hexponent : readExponent? rest = some ([], rest) := by
    obtain rfl | ⟨c, t, rfl, rfl | rfl | rfl⟩ := h.cases
    all_goals rfl
  simp [readNumber?, hsign, readWhole?_digits n h, hfraction, hexponent]

/-! ## Values -/

/-- The values that are written: numbers without sign, fraction and exponent, and only literals that
can be read. -/
inductive WellFormed : JsonTree → Prop
  | null : WellFormed .null
  | bool (b : Bool) : WellFormed (.bool b)
  | number (n : Nat) : WellFormed (.number (Decimal.digits n))
  | string {literal : Text} (h : JsonLiteral.isWellFormed literal = true) :
    WellFormed (.string literal)
  | array {elements : List JsonTree} (h : ∀ v ∈ elements, WellFormed v) :
    WellFormed (.array elements)
  | object {members : List (Text × JsonTree)}
    (hnames : ∀ m ∈ members, JsonLiteral.isWellFormed m.1 = true)
    (h : ∀ m ∈ members, WellFormed m.2) : WellFormed (.object members)

theorem skip_cons {c : Char} (h : isSpace c = false) (t : Text) : skip (c :: t) = c :: t := by
  simp [skip, h]

/-- The text begins with a character that is no blank and does not end an array. -/
def BeginsValue (t : Text) : Prop :=
  ∃ c t', t = c :: t' ∧ isSpace c = false ∧ c ≠ ']'

/-- A value that is read back wherever it is written. -/
structure Legible (j : JsonTree) : Prop where
  begins : BeginsValue j.compact
  reads : ∀ fuel rest, j.compact.length ≤ fuel → Follows rest →
    readValue? fuel (j.compact ++ rest) = some (j, rest)

/-- A value has a character, so at least one step is left for it. -/
theorem legible_of_succ {j : JsonTree} (hbegins : BeginsValue j.compact)
    (h : ∀ fuel rest, j.compact.length ≤ fuel + 1 → Follows rest →
      readValue? (fuel + 1) (j.compact ++ rest) = some (j, rest)) : Legible j := by
  refine ⟨hbegins, fun fuel rest hfuel hrest => ?_⟩
  obtain ⟨c, t, hcons, -, -⟩ := hbegins
  have hpos : 0 < j.compact.length := by simp [hcons]
  obtain ⟨fuel, rfl⟩ := Nat.exists_eq_add_one_of_ne_zero (n := fuel) (by omega)
  exact h fuel rest hfuel hrest

theorem legible_null : Legible .null :=
  legible_of_succ ⟨'n', _, rfl, by decide, by decide⟩ fun _ _ _ _ => rfl

theorem legible_bool (b : Bool) : Legible (.bool b) := by
  cases b with
  | false => exact legible_of_succ ⟨'f', _, rfl, by decide, by decide⟩ fun _ _ _ _ => rfl
  | true => exact legible_of_succ ⟨'t', _, rfl, by decide, by decide⟩ fun _ _ _ _ => rfl

/-- What begins with a digit is read as a number. -/
theorem readValue?_of_isDigit {c : Char} (h : c.isDigit = true) (fuel : Nat) (t : Text) :
    readValue? (fuel + 1) (c :: t) = (readNumber? (c :: t)).map fun p => (.number p.1, p.2) := by
  have hhead {x : Char} {t' : Text} (heq : c :: t = x :: t') : x.isDigit = true := by
    cases heq
    exact h
  have hspace : isSpace c = false := by
    simp [isSpace, ne_of_isDigit h]
  rw [readValue?, skip_cons hspace]
  split
  case h_7 => rfl
  -- no other value begins with a digit
  all_goals
    rename_i heq
    exact absurd (hhead heq) (by decide)

theorem legible_number (n : Nat) : Legible (.number (Decimal.digits n)) := by
  obtain ⟨c, t, hcons, hc⟩ := exists_digits_eq n
  have hbegins : BeginsValue (Decimal.digits n) :=
    ⟨c, t, hcons, by simp [isSpace, ne_of_isDigit hc], ne_of_isDigit hc (by decide)⟩
  refine legible_of_succ hbegins fun fuel rest _ hrest => ?_
  have hread := readNumber?_digits n hrest
  rw [compact, hcons, List.cons_append, readValue?_of_isDigit hc]
  rw [hcons, List.cons_append] at hread
  rw [hread]
  rfl

theorem legible_string {literal : Text} (h : JsonLiteral.isWellFormed literal = true) :
    Legible (.string literal) := by
  refine legible_of_succ ⟨'"', _, rfl, by decide, by decide⟩ fun fuel rest _ _ => ?_
  have hcons : compact (.string literal) ++ rest = '"' :: (literal ++ '"' :: rest) := by
    simp [compact, quoted]
  rw [hcons, readValue?, skip_cons (by decide)]
  simp only [readLiteral?_append h, Option.map_some]

/-! ## Arrays -/

theorem length_compactElements_pos (elements : List JsonTree) :
    0 < (compactElements elements).length := by
  cases elements with
  | nil => exact Nat.one_pos
  | cons v elements => simp [compactElements]

/-- The elements of an array are read one after the other, with a step for each. -/
theorem readElements?_append {v : JsonTree} {elements : List JsonTree}
    (h : ∀ w ∈ v :: elements, Legible w) {fuel : Nat}
    (hfuel : (v.compact ++ compactElements elements).length ≤ fuel) (rest : Text) :
    readElements? fuel (v.compact ++ (compactElements elements ++ rest)) =
      some (v :: elements, rest) := by
  -- each element is ended by the comma of the next one, and the last by the bracket
  induction elements generalizing v fuel with
  | nil =>
    rw [List.length_append] at hfuel
    have hend := length_compactElements_pos []
    obtain ⟨fuel, rfl⟩ := Nat.exists_eq_add_one_of_ne_zero (n := fuel) (by omega)
    have hread := (h v List.mem_cons_self).reads fuel _ (by omega) (follows_compactElements [] rest)
    rw [readElements?, hread]
    rfl
  | cons w elements ih =>
    obtain ⟨hv, hothers⟩ := List.forall_mem_cons.mp h
    rw [List.length_append] at hfuel
    have hcomma : compactElements (w :: elements) ++ rest =
        ',' :: (w.compact ++ (compactElements elements ++ rest)) := by
      simp [compactElements]
    have hlength : (compactElements (w :: elements)).length =
        (w.compact ++ compactElements elements).length + 1 := by
      simp [compactElements]
    obtain ⟨fuel, rfl⟩ := Nat.exists_eq_add_one_of_ne_zero (n := fuel) (by omega)
    have hread := hv.reads fuel _ (by omega) (follows_compactElements (w :: elements) rest)
    have hfits : (w.compact ++ compactElements elements).length ≤ fuel := by omega
    rw [readElements?, hread]
    simp only [Option.bind_eq_bind, Option.bind_some]
    rw [hcomma, skip_cons (by decide)]
    simp only [ih hothers hfits, Option.map_some]

theorem BeginsValue.append {t : Text} (h : BeginsValue t) (rest : Text) :
    BeginsValue (t ++ rest) := by
  obtain ⟨c, t', rfl, hspace, hne⟩ := h
  exact ⟨c, t' ++ rest, rfl, hspace, hne⟩

theorem BeginsValue.skip_eq {t : Text} (h : BeginsValue t) : skip t = t := by
  obtain ⟨c, t', rfl, hspace, -⟩ := h
  exact skip_cons hspace t'

theorem legible_array {elements : List JsonTree} (h : ∀ v ∈ elements, Legible v) :
    Legible (.array elements) := by
  cases elements with
  | nil => exact legible_of_succ ⟨'[', _, rfl, by decide, by decide⟩ fun _ _ _ _ => rfl
  | cons v elements =>
    refine legible_of_succ ⟨'[', _, rfl, by decide, by decide⟩ fun fuel rest hfuel _ => ?_
    have hopen : compact (.array (v :: elements)) ++ rest =
        '[' :: (v.compact ++ (compactElements elements ++ rest)) := by
      simp [compact]
    have hlength : (compact (.array (v :: elements))).length =
        (v.compact ++ compactElements elements).length + 1 := by
      simp [compact]
    have hfits : (v.compact ++ compactElements elements).length ≤ fuel := by omega
    have hbegins := (h v List.mem_cons_self).begins.append (compactElements elements ++ rest)
    rw [hopen, readValue?, skip_cons (by decide)]
    simp only [hbegins.skip_eq]
    split
    · -- the array would be empty
      rename_i heq
      obtain ⟨c, t, hcons, -, hne⟩ := hbegins
      rw [hcons] at heq
      exact absurd (List.cons.inj heq).1 hne
    · rw [readElements?_append h hfits]
      rfl

/-! ## Objects -/

/-- The name of a member is read up to the colon after it. -/
theorem readName?_quoted {name : Text} (h : JsonLiteral.isWellFormed name = true) (rest : Text) :
    readName? (quoted name ++ ':' :: rest) = some (name, rest) := by
  have hcons : quoted name ++ ':' :: rest = '"' :: (name ++ '"' :: ':' :: rest) := by
    simp [quoted]
  rw [readName?, hcons, skip_cons (by decide)]
  simp only [readLiteral?_append h]
  rfl

theorem length_compactMembers_pos (members : List (Text × JsonTree)) :
    0 < (compactMembers members).length := by
  cases members with
  | nil => exact Nat.one_pos
  | cons m members => simp [compactMembers]

/-- The members of an object are read one after the other, with a step for each. -/
theorem readMembers?_append {m : Text × JsonTree} {members : List (Text × JsonTree)}
    (h : ∀ n ∈ m :: members, JsonLiteral.isWellFormed n.1 = true ∧ Legible n.2) {fuel : Nat}
    (hfuel : (m.2.compact ++ compactMembers members).length ≤ fuel) (rest : Text) :
    readMembers? fuel
        (quoted m.1 ++ ':' :: (m.2.compact ++ (compactMembers members ++ rest))) =
      some (m :: members, rest) := by
  induction members generalizing m fuel with
  | nil =>
    obtain ⟨hname, hv⟩ := h m List.mem_cons_self
    rw [List.length_append] at hfuel
    have hend := length_compactMembers_pos []
    obtain ⟨fuel, rfl⟩ := Nat.exists_eq_add_one_of_ne_zero (n := fuel) (by omega)
    have hread := hv.reads fuel _ (by omega) (follows_compactMembers [] rest)
    rw [readMembers?, readName?_quoted hname]
    simp only [Option.bind_eq_bind, Option.bind_some, hread]
    rfl
  | cons n members ih =>
    obtain ⟨⟨hname, hv⟩, hothers⟩ := List.forall_mem_cons.mp h
    rw [List.length_append] at hfuel
    have hcomma : compactMembers (n :: members) ++ rest =
        ',' :: (quoted n.1 ++ ':' :: (n.2.compact ++ (compactMembers members ++ rest))) := by
      simp [compactMembers]
    have hlength : (n.2.compact ++ compactMembers members).length <
        (compactMembers (n :: members)).length := by
      simp only [compactMembers, List.cons_append, List.append_assoc, List.length_append,
        List.length_cons]
      omega
    obtain ⟨fuel, rfl⟩ := Nat.exists_eq_add_one_of_ne_zero (n := fuel) (by omega)
    have hread := hv.reads fuel _ (by omega) (follows_compactMembers (n :: members) rest)
    have hfits : (n.2.compact ++ compactMembers members).length ≤ fuel := by omega
    rw [readMembers?, readName?_quoted hname]
    simp only [Option.bind_eq_bind, Option.bind_some, hread]
    rw [hcomma, skip_cons (by decide)]
    simp only [ih hothers hfits, Option.map_some]

theorem legible_object {members : List (Text × JsonTree)}
    (h : ∀ m ∈ members, JsonLiteral.isWellFormed m.1 = true ∧ Legible m.2) :
    Legible (.object members) := by
  cases members with
  | nil => exact legible_of_succ ⟨'\x7b', _, rfl, by decide, by decide⟩ fun _ _ _ _ => rfl
  | cons m members =>
    refine legible_of_succ ⟨'\x7b', _, rfl, by decide, by decide⟩ fun fuel rest hfuel _ => ?_
    have hopen : compact (.object (m :: members)) ++ rest =
        '\x7b' :: (quoted m.1 ++ ':' :: (m.2.compact ++ (compactMembers members ++ rest))) := by
      simp [compact]
    have hlength : (m.2.compact ++ compactMembers members).length <
        (compact (.object (m :: members))).length := by
      simp only [compact, List.cons_append, List.append_assoc, List.length_append,
        List.length_cons]
      omega
    have hfits : (m.2.compact ++ compactMembers members).length ≤ fuel := by omega
    have hquote (t : Text) : skip (quoted m.1 ++ t) = quoted m.1 ++ t := skip_cons (by decide) _
    rw [hopen, readValue?, skip_cons (by decide)]
    simp only [hquote]
    split
    · -- the object would be empty
      rename_i heq
      cases heq
    · rw [readMembers?_append h hfits]
      rfl

/-! ## All values -/

theorem WellFormed.legible {j : JsonTree} (h : j.WellFormed) : Legible j := by
  induction h with
  | null => exact legible_null
  | bool b => exact legible_bool b
  | number n => exact legible_number n
  | string h => exact legible_string h
  | array _ ih => exact legible_array ih
  | object hnames _ ih => exact legible_object fun m hm => ⟨hnames m hm, ih m hm⟩

/-- A value that is written reads back. -/
theorem parse?_compact {j : JsonTree} (h : j.WellFormed) : parse? j.compact = some j := by
  have hread := h.legible.reads (2 * j.compact.length + 1) [] (by omega) follows_nil
  rw [List.append_nil] at hread
  rw [parse?, hread]
  rfl

end BuildStep.JsonTree
