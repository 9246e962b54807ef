import BuildStep.Proofs.Record.Ports

/-!
# What is a port binding

A record of a port binding is made of parts, and each part has a form of its own: an address is four
short runs of digits, a port is a run of digits that writes a number which is not too great, and so
on.  What has all its parts in place and in form is accepted, nothing else is, and no text has its
parts in two ways.

The reader cuts a record at its last slash, at its last colon or blank, and at its last colon again.
The proofs go the other way and build up from the parts: for each of them, the reader accepts the
text of such a part and no other text.

## Key results

- `isDottedQuad_iff`, `readHostPort_eq_ok_iff`, `readContainerPort_eq_ok_iff`: single parts
- `readHost_eq_ok_iff`, `readHead_eq_ok_iff`, `read_eq_ok_iff`: one part after the other
- `exclusive_readings`: no head is read with a colon and with blanks
- `Place.text_injective`, `Head.text_injective`, `Written.text_injective`: parts are told apart
- `parse_iff_written`: what is accepted, and as what
-/

namespace BuildStep.PortSpec

open Record (bind_eq_ok_iff map_eq_ok_iff)

/-! ## Parts of a record -/

/-- Four groups of one to three digits, with dots in between. -/
def IsQuad (t : Text) : Prop :=
  ∃ groups : List Text, groups.length = 4 ∧
    (∀ g ∈ groups, 1 ≤ g.length ∧ g.length ≤ 3 ∧ ∀ c ∈ g, c.isDigit = true) ∧
    t = List.intercalate ['.'] groups

/-- A run of digits that writes the number of a port.  A run without digits writes zero. -/
@[ext]
structure Numeral where
  text : Text
  digits : ∀ c ∈ text, c.isDigit = true
  le : Nat.ofDigitChars 10 text 0 ≤ 65535

/-- The number that is written. -/
def Numeral.value (n : Numeral) : Nat :=
  Nat.ofDigitChars 10 n.text 0

/-- The port of this number. -/
def Numeral.port (n : Numeral) : UInt16 :=
  UInt16.ofNat n.value

/-- A place on the host: an address and a colon, which may be left out, and a port, which may have no
digits. -/
@[ext]
structure Place where
  address : Option Text
  quad : ∀ a, address = some a → IsQuad a
  port : Numeral

/-- How the address is written. -/
def Place.addressText (p : Place) : Text :=
  match p.address with
  | some a => a ++ [':']
  | none => []

def Place.text (p : Place) : Text :=
  p.addressText ++ p.port.text

def Place.binding (p : Place) : HostBinding :=
  ⟨p.address, p.port.port⟩

/-- What may stand before the port of the container: one colon, or any blanks. -/
inductive IsDelimiter : Text → Prop
  | colon : IsDelimiter [':']
  | blanks {blanks : Text} : blanks ≠ [] → (∀ c ∈ blanks, Text.isBlank c = true) →
    IsDelimiter blanks

/-- A place on the host and a port of the container, which is not zero. -/
@[ext]
structure Head where
  place : Place
  delimiter : Text
  isDelimiter : IsDelimiter delimiter
  container : Numeral
  positive : 1 ≤ container.value

def Head.text (h : Head) : Text :=
  h.place.text ++ h.delimiter ++ h.container.text

/-- A slash with blanks around it, and a protocol. -/
@[ext]
structure ProtocolPart where
  before : Text
  after : Text
  blank : ∀ c, c ∈ before ∨ c ∈ after → Text.isBlank c = true
  protocol : Protocol

def ProtocolPart.text (p : ProtocolPart) : Text :=
  p.before ++ '/' :: (p.after ++ p.protocol.token)

/-- A port binding as it is written, part by part. -/
@[ext]
structure Written where
  head : Head
  protocolPart : Option ProtocolPart

/-- How a protocol is written that may be left out. -/
def protocolText : Option ProtocolPart → Text
  | some p => p.text
  | none => []

/-- Which protocol is meant. -/
def protocolOf : Option ProtocolPart → Protocol
  | some p => p.protocol
  | none => .tcp

def Written.text (w : Written) : Text :=
  w.head.text ++ protocolText w.protocolPart

/-- What is written. -/
def Written.spec (w : Written) : PortSpec where
  hostIp := w.head.place.address
  hostPort := w.head.place.port.port
  containerPort := w.head.container.port
  protocol := protocolOf w.protocolPart

/-! ## Addresses and ports -/

theorem isDottedQuad_iff {t : Text} : isDottedQuad t = true ↔ IsQuad t := by
  simp only [isDottedQuad, Bool.and_eq_true, decide_eq_true_eq, List.all_eq_true, and_assoc]
  constructor
  · rintro ⟨hlen, hgroups⟩
    exact ⟨t.splitOn '.', hlen, hgroups, (List.intercalate_splitOn '.').symm⟩
  · rintro ⟨groups, hlen, hgroups, rfl⟩
    -- a group of digits has no dot in it, so the groups come apart again
    have hdots : ∀ g ∈ groups, '.' ∉ g := by
      intro g hg hdot
      exact absurd ((hgroups g hg).2.2 '.' hdot) (by decide)
    have hne : groups ≠ [] := by
      rintro rfl
      cases hlen
    rw [List.splitOn_intercalate '.' hdots hne]
    exact ⟨hlen, hgroups⟩

theorem Numeral.toNat_port (n : Numeral) : n.port.toNat = n.value := by
  have hle : n.value ≤ 65535 := n.le
  rw [port, UInt16.toNat_ofNat']
  omega

theorem Numeral.text_ne_nil (n : Numeral) (h : 1 ≤ n.value) : n.text ≠ [] := by
  intro hnil
  rw [value, hnil] at h
  exact absurd h (Nat.not_succ_le_zero 0)

theorem readPort_eq_ok_iff {field : PortField} {t : Text} {p : UInt16} :
    readPort field t = .ok p ↔ t ≠ [] ∧ ∃ n : Numeral, n.text = t ∧ n.port = p := by
  unfold readPort Decimal.read?
  constructor
  · intro h
    split at h
    · cases h
    · rename_i n hread
      split at hread
      · rename_i hdigits
        cases hread
        split at h
        · rename_i hle
          cases h
          simp only [Bool.and_eq_true, Bool.not_eq_true', List.isEmpty_eq_false_iff,
            List.all_eq_true] at hdigits
          exact ⟨hdigits.1, ⟨t, hdigits.2, hle⟩, rfl, rfl⟩
        · cases h
      · cases hread
  · rintro ⟨hne, n, rfl, rfl⟩
    have hdigits : (!n.text.isEmpty && n.text.all Char.isDigit) = true := by
      simpa [hne] using n.digits
    rw [if_pos hdigits]
    exact if_pos n.le

/-- The port of the host may have no digits. -/
theorem readHostPort_eq_ok_iff {t : Text} {p : UInt16} :
    readHostPort t = .ok p ↔ ∃ n : Numeral, n.text = t ∧ n.port = p := by
  unfold readHostPort
  split
  · rename_i hempty
    rw [List.isEmpty_iff] at hempty
    subst hempty
    constructor
    · intro h
      cases h
      exact ⟨⟨[], fun _ hc => absurd hc List.not_mem_nil, by decide⟩, rfl, rfl⟩
    · rintro ⟨⟨text, digits, le⟩, rfl, rfl⟩
      rfl
  · rename_i hempty
    rw [readPort_eq_ok_iff]
    exact and_iff_right (by simpa using hempty)

/-- That of the container must not be zero. -/
theorem readContainerPort_eq_ok_iff {t : Text} {p : UInt16} :
    readContainerPort t = .ok p ↔ ∃ n : Numeral, n.text = t ∧ n.port = p ∧ 1 ≤ n.value := by
  have hzero (n : Numeral) : n.port = 0 ↔ n.value = 0 := by
    rw [← UInt16.toNat_inj, n.toNat_port]
    rfl
  unfold readContainerPort
  split
  · rename_i hempty
    rw [List.isEmpty_iff] at hempty
    subst hempty
    constructor
    · intro h
      cases h
    · rintro ⟨n, hn, -, hpos⟩
      exact absurd hn (n.text_ne_nil hpos)
  · rename_i hempty
    rw [bind_eq_ok_iff]
    constructor
    · rintro ⟨port, hport, h⟩
      obtain ⟨-, n, hn, rfl⟩ := readPort_eq_ok_iff.mp hport
      split at h
      · cases h
      · rename_i hne
        cases h
        exact ⟨n, hn, rfl, Nat.pos_of_ne_zero (mt (hzero n).mpr hne)⟩
    · rintro ⟨n, rfl, rfl, hpos⟩
      refine ⟨n.port, readPort_eq_ok_iff.mpr ⟨by simpa using hempty, n, rfl, rfl⟩, ?_⟩
      exact if_neg (mt (hzero n).mp (by omega))

/-! ## Characters of the parts -/

theorem Numeral.not_mem_text (n : Numeral) :
    ∀ c ∈ n.text, Text.isBlank c = false ∧ c ≠ ':' ∧ c ≠ '/' :=
  fun c hc => Text.plain_of_isDigit (n.digits c hc)

theorem Place.mem_addressText {p : Place} {c : Char} (hc : c ∈ p.addressText) :
    Text.isBlank c = false ∧ c ≠ '/' := by
  unfold addressText at hc
  split at hc
  · rename_i a ha
    rcases List.mem_append.mp hc with hc | hc
    · have hplain := mem_of_isDottedQuad (isDottedQuad_iff.mpr (p.quad a ha)) c hc
      exact ⟨hplain.1, hplain.2.2⟩
    · rw [List.mem_singleton.mp hc]
      decide
  · cases hc

theorem Place.mem_text {p : Place} {c : Char} (hc : c ∈ p.text) :
    Text.isBlank c = false ∧ c ≠ '/' := by
  rcases List.mem_append.mp hc with hc | hc
  · exact mem_addressText hc
  · have hplain := p.port.not_mem_text c hc
    exact ⟨hplain.1, hplain.2.2⟩

theorem IsDelimiter.mem {d : Text} (h : IsDelimiter d) {c : Char} (hc : c ∈ d) :
    c = ':' ∨ Text.isBlank c = true := by
  cases h with
  | colon => exact .inl (List.mem_singleton.mp hc)
  | blanks hne hblank => exact .inr (hblank c hc)

theorem IsDelimiter.ne_nil {d : Text} (h : IsDelimiter d) : d ≠ [] := by
  cases h with
  | colon => exact List.cons_ne_nil ':' []
  | blanks hne hblank => exact hne

/-- No delimiter is a digit or a slash. -/
theorem IsDelimiter.plain {d : Text} (h : IsDelimiter d) {c : Char} (hc : c ∈ d) :
    c.isDigit = false ∧ c ≠ '/' := by
  rcases h.mem hc with rfl | hblank
  · decide
  · constructor
    · rw [Bool.eq_false_iff]
      intro hdigit
      rw [(Text.plain_of_isDigit hdigit).1] at hblank
      cases hblank
    · rintro rfl
      exact absurd hblank (by decide)

theorem Head.not_mem_text (h : Head) : ∀ c ∈ h.text, c ≠ '/' := by
  intro c hc
  rw [Head.text, List.append_assoc, List.mem_append, List.mem_append] at hc
  rcases hc with hc | hc | hc
  · exact (Place.mem_text hc).2
  · exact (h.isDelimiter.plain hc).2
  · exact (h.container.not_mem_text c hc).2.2

theorem Head.last_text (h : Head) {c : Char} (hc : h.text.getLast? = some c) :
    Text.isBlank c = false := by
  rw [Head.text, List.getLast?_append_of_ne_nil _ (h.container.text_ne_nil h.positive)] at hc
  exact (h.container.not_mem_text c (List.mem_of_getLast? hc)).1

/-! ## The place on the host -/

theorem readHost_eq_ok_iff {t : Text} {b : HostBinding} :
    readHost t = .ok b ↔ ∃ p : Place, p.text = t ∧ p.binding = b := by
  constructor
  · intro h
    unfold readHost at h
    split at h
    · rename_i a port hcut
      obtain ⟨c, hc, -, rfl⟩ := Text.cutLast?_eq_some_iff.mp hcut
      rw [of_decide_eq_true hc]
      split at h
      · rename_i hquad
        obtain ⟨p, hport, rfl⟩ := map_eq_ok_iff.mp h
        obtain ⟨n, rfl, rfl⟩ := readHostPort_eq_ok_iff.mp hport
        refine ⟨⟨some a, ?_, n⟩, ?_, rfl⟩
        · intro a' ha'
          cases ha'
          exact isDottedQuad_iff.mp hquad
        · simp [Place.text, Place.addressText]
      · cases h
    · obtain ⟨p, hport, rfl⟩ := map_eq_ok_iff.mp h
      obtain ⟨n, rfl, rfl⟩ := readHostPort_eq_ok_iff.mp hport
      exact ⟨⟨none, (by intro a ha; cases ha), n⟩, rfl, rfl⟩
  · rintro ⟨⟨address, quad, n⟩, rfl, rfl⟩
    have hcolon : ∀ c ∈ n.text, decide (c = ':') = false :=
      fun c hc => decide_eq_false (n.not_mem_text c hc).2.1
    have hport : readHostPort n.text = .ok n.port := readHostPort_eq_ok_iff.mpr ⟨n, rfl, rfl⟩
    cases address with
    | none =>
      have hcut := Text.cutLast?_of_forall hcolon
      simp only [readHost, Place.text, Place.addressText, Place.binding, List.nil_append, hcut,
        hport, Except.map]
    | some a =>
      have hcut := Text.cutLast?_append_cons (p := (· = ':')) (decide_eq_true rfl) hcolon a
      have hquad := isDottedQuad_iff.mpr (quad a rfl)
      simp only [readHost, Place.text, Place.addressText, Place.binding, List.append_assoc,
        List.cons_append, List.nil_append, hcut, hquad, if_true, hport, Except.map]

theorem ofParts_eq_ok_iff {host container : Text} {b : HostBinding} {p : UInt16} :
    ofParts host container = .ok (b, p) ↔
      readHost host = .ok b ∧ readContainerPort container = .ok p := by
  constructor
  · intro h
    obtain ⟨port, hport, h⟩ := bind_eq_ok_iff.mp h
    obtain ⟨place, hplace, h⟩ := bind_eq_ok_iff.mp h
    cases h
    exact ⟨hplace, hport⟩
  · rintro ⟨hhost, hcontainer⟩
    exact bind_eq_ok_iff.mpr ⟨p, hcontainer, bind_eq_ok_iff.mpr ⟨b, hhost, rfl⟩⟩

/-- Both readings of the ports end with a place, and a port of the container. -/
theorem ofParts_eq_ok_iff_exists {host container : Text} {r : HostBinding × UInt16} :
    ofParts host container = .ok r ↔
      ∃ (p : Place) (n : Numeral), 1 ≤ n.value ∧ p.text = host ∧ n.text = container ∧
        (p.binding, n.port) = r := by
  obtain ⟨b, port⟩ := r
  rw [ofParts_eq_ok_iff, readHost_eq_ok_iff, readContainerPort_eq_ok_iff]
  constructor
  · rintro ⟨⟨p, hp, rfl⟩, n, hn, rfl, hpos⟩
    exact ⟨p, n, hpos, hp, hn, rfl⟩
  · rintro ⟨p, n, hpos, hp, hn, h⟩
    cases h
    exact ⟨⟨p, hp, rfl⟩, n, hn, rfl, hpos⟩

/-! ## The ports -/

/-- A text that is cut at a colon is read so if the colon is the delimiter of its parts. -/
theorem readColon_eq_ok_iff {t : Text} {r : HostBinding × UInt16} :
    readColon t = .ok r ↔
      ∃ h : Head, h.delimiter = [':'] ∧ h.text = t ∧ (h.place.binding, h.container.port) = r := by
  constructor
  · intro h
    unfold readColon at h
    split at h
    · rename_i host container hcut
      obtain ⟨c, hc, -, rfl⟩ := Text.cutLast?_eq_some_iff.mp hcut
      obtain ⟨p, n, hpos, rfl, rfl, rfl⟩ := ofParts_eq_ok_iff_exists.mp h
      refine ⟨⟨p, [':'], .colon, n, hpos⟩, rfl, ?_, rfl⟩
      rw [of_decide_eq_true hc, Head.text, List.append_assoc]
      rfl
    · cases h
  · rintro ⟨⟨p, d, hd, n, hpos⟩, rfl, rfl, rfl⟩
    have hcolon : ∀ c ∈ n.text, decide (c = ':') = false :=
      fun c hc => decide_eq_false (n.not_mem_text c hc).2.1
    have hcut := Text.cutLast?_append_cons (p := (· = ':')) (decide_eq_true rfl) hcolon p.text
    rw [readColon, Head.text, List.append_assoc, List.singleton_append, hcut]
    exact ofParts_eq_ok_iff_exists.mpr ⟨p, n, hpos, rfl, rfl, rfl⟩

/-- So it is with blanks. -/
theorem readBlanks_eq_ok_iff {t : Text} (ht : Text.IsTrimmed t) {r : HostBinding × UInt16} :
    readBlanks t = .ok r ↔
      ∃ h : Head, (∀ c ∈ h.delimiter, Text.isBlank c = true) ∧ h.text = t ∧
        (h.place.binding, h.container.port) = r := by
  rw [readBlanks, Text.trim_eq_self ht]
  constructor
  · intro h
    split at h
    · rename_i host container hcut
      obtain ⟨c, hc, -, rfl⟩ := Text.cutLast?_eq_some_iff.mp hcut
      obtain ⟨p, n, hpos, hplace, rfl, rfl⟩ := ofParts_eq_ok_iff_exists.mp h
      obtain ⟨blanks, hblanks, hhost⟩ := Text.exists_trimEnd host
      have hall : ∀ x ∈ blanks ++ [c], Text.isBlank x = true := by
        intro x hx
        rcases List.mem_append.mp hx with hx | hx
        · exact hblanks x hx
        · rw [List.mem_singleton.mp hx]
          exact hc
      refine ⟨⟨p, blanks ++ [c], .blanks (by simp) hall, n, hpos⟩, hall, ?_, rfl⟩
      rw [Head.text, hplace, ← List.append_assoc, ← hhost, List.append_assoc]
      rfl
    · cases h
  · rintro ⟨⟨p, d, hd, n, hpos⟩, hall, rfl, rfl⟩
    -- the cut is made at the last of the blanks, and trimming takes away the others
    obtain ⟨before, c, rfl⟩ := (List.eq_nil_or_concat' d).resolve_left hd.ne_nil
    change ∀ x ∈ before ++ [c], Text.isBlank x = true at hall
    have hdigits : ∀ x ∈ n.text, Text.isBlank x = false := fun x hx => (n.not_mem_text x hx).1
    have hbefore : ∀ x ∈ before, Text.isBlank x = true :=
      fun x hx => hall x (List.mem_append_left _ hx)
    have hlast : ∀ x, p.text.getLast? = some x → Text.isBlank x = false :=
      fun x hx => (Place.mem_text (List.mem_of_getLast? hx)).1
    have htext : Head.text ⟨p, before ++ [c], hd, n, hpos⟩ = (p.text ++ before) ++ c :: n.text := by
      simp [Head.text]
    have hcut := Text.cutLast?_append_cons (hall c (List.mem_append_right _ List.mem_cons_self))
      hdigits (p.text ++ before)
    rw [htext, hcut]
    dsimp only
    rw [Text.trimEnd_append hlast hbefore]
    exact ofParts_eq_ok_iff_exists.mpr ⟨p, n, hpos, rfl, rfl, rfl⟩

/-! ## No text has its parts in two ways -/

theorem Place.last_addressText (p : Place) {c : Char} (hc : p.addressText.getLast? = some c) :
    c.isDigit = false := by
  unfold addressText at hc
  split at hc
  · rw [List.getLast?_concat] at hc
    cases hc
    rfl
  · cases hc

theorem Place.text_injective {p p' : Place} (h : p.text = p'.text) : p = p' := by
  obtain ⟨haddress, hport⟩ := Text.append_inj_of_forall (fun _ => p.last_addressText)
    (fun _ => p'.last_addressText) p.port.digits p'.port.digits h
  refine Place.ext ?_ (Numeral.ext hport)
  unfold addressText at haddress
  split at haddress <;> split at haddress
  · rename_i ha _ _ ha'
    rw [ha, ha', List.append_cancel_right haddress]
  · simp at haddress
  · simp at haddress
  · rename_i ha _ ha'
    rw [ha, ha']

theorem IsDelimiter.append_inj {p p' : Place} {d d' : Text} (hd : IsDelimiter d)
    (hd' : IsDelimiter d') (h : p.text ++ d = p'.text ++ d') : p.text = p'.text ∧ d = d' := by
  have hlast : ∀ (p : Place) (c : Char), p.text.getLast? = some c → Text.isBlank c = false :=
    fun p c hc => (Place.mem_text (List.mem_of_getLast? hc)).1
  -- a colon is no blank, so the delimiters are of one kind
  have hmixed : ∀ (p p' : Place) (blanks : Text), blanks ≠ [] →
      (∀ c ∈ blanks, Text.isBlank c = true) → p.text ++ [':'] ≠ p'.text ++ blanks := by
    intro p p' blanks hne hblanks h
    have hcolon := congrArg List.getLast? h
    rw [List.getLast?_concat, List.getLast?_append_of_ne_nil _ hne] at hcolon
    exact absurd (hblanks _ (List.mem_of_getLast? hcolon.symm)) (by decide)
  cases hd with
  | colon =>
    cases hd' with
    | colon => exact ⟨List.append_cancel_right h, rfl⟩
    | blanks hne' hblanks' => exact absurd h (hmixed p p' _ hne' hblanks')
  | blanks hne hblanks =>
    cases hd' with
    | colon => exact absurd h.symm (hmixed p' p _ hne hblanks)
    | blanks hne' hblanks' =>
      exact Text.append_inj_of_forall (hlast p) (hlast p') hblanks hblanks' h

theorem Head.text_injective {h h' : Head} (heq : h.text = h'.text) : h = h' := by
  have hlast : ∀ (h : Head) (c : Char), (h.place.text ++ h.delimiter).getLast? = some c →
      c.isDigit = false := by
    intro h c hc
    rw [List.getLast?_append_of_ne_nil _ h.isDelimiter.ne_nil] at hc
    exact (h.isDelimiter.plain (List.mem_of_getLast? hc)).1
  obtain ⟨hfront, hcontainer⟩ := Text.append_inj_of_forall (hlast h) (hlast h') h.container.digits
    h'.container.digits heq
  obtain ⟨hplace, hdelimiter⟩ := h.isDelimiter.append_inj h'.isDelimiter hfront
  exact Head.ext (Place.text_injective hplace) hdelimiter (Numeral.ext hcontainer)

theorem head_token (p : Protocol) :
    ∀ c, p.token.head? = some c → Text.isBlank c = false :=
  fun c hc => (p.not_mem_token c (List.mem_of_head? hc)).1

/-- Behind the last slash there are blanks and a protocol, and no other slash. -/
theorem ProtocolPart.not_mem_rest (p : ProtocolPart) :
    ∀ c ∈ p.after ++ p.protocol.token, decide (c = '/') = false := by
  intro c hc
  apply decide_eq_false
  rcases List.mem_append.mp hc with hc | hc
  · rintro rfl
    exact absurd (p.blank _ (.inr hc)) (by decide)
  · exact (p.protocol.not_mem_token c hc).2.2

theorem cutLast?_protocolPart (head : Text) (p : ProtocolPart) :
    Text.cutLast? (· = '/') (head ++ p.text) =
      some (head ++ p.before, p.after ++ p.protocol.token) := by
  rw [ProtocolPart.text, ← List.append_assoc]
  exact Text.cutLast?_append_cons (decide_eq_true rfl) p.not_mem_rest (head ++ p.before)

theorem Written.text_injective {w w' : Written} (h : w.text = w'.text) : w = w' := by
  obtain ⟨head, part⟩ := w
  obtain ⟨head', part'⟩ := w'
  have hnone : ∀ head : Head, Text.cutLast? (· = '/') head.text = none :=
    fun head => Text.cutLast?_of_forall fun c hc => decide_eq_false (head.not_mem_text c hc)
  have hcut := congrArg (Text.cutLast? (· = '/')) h
  cases part with
  | none =>
    cases part' with
    | none =>
      simp only [text, protocolText, List.append_nil] at h
      rw [Head.text_injective h]
    | some p' =>
      simp only [text, protocolText, List.append_nil, hnone, cutLast?_protocolPart] at hcut
      cases hcut
  | some p =>
    cases part' with
    | none =>
      simp only [text, protocolText, List.append_nil, hnone, cutLast?_protocolPart] at hcut
      cases hcut
    | some p' =>
      simp only [text, protocolText, cutLast?_protocolPart, Option.some.injEq,
        Prod.mk.injEq] at hcut
      obtain ⟨hfront, hrest⟩ := hcut
      -- the blanks around the slash are told apart from what they stand at
      obtain ⟨hhead, hbefore⟩ := Text.append_inj_of_forall (fun _ => head.last_text)
        (fun _ => head'.last_text) (fun c hc => p.blank c (.inl hc))
        (fun c hc => p'.blank c (.inl hc)) hfront
      have htoken := congrArg Text.trimStart hrest
      rw [Text.trimStart_append (fun c hc => p.blank c (.inr hc)) (head_token _),
        Text.trimStart_append (fun c hc => p'.blank c (.inr hc)) (head_token _)] at htoken
      have hprotocol := congrArg Protocol.ofToken? htoken
      rw [Protocol.ofToken?_token, Protocol.ofToken?_token, Option.some.injEq] at hprotocol
      rw [htoken] at hrest
      rw [Head.text_injective hhead,
        ProtocolPart.ext hbefore (List.append_cancel_right hrest) hprotocol]

/-! ## What is accepted -/

/-- Ports with a colon before the port of the container have no blank among them. -/
theorem not_isBlank_of_readColon {t : Text} {r : HostBinding × UInt16} (h : readColon t = .ok r) :
    ∀ c ∈ t, Text.isBlank c = false := by
  obtain ⟨head, hdelimiter, rfl, -⟩ := readColon_eq_ok_iff.mp h
  intro c hc
  rw [Head.text, hdelimiter, List.append_assoc, List.mem_append, List.mem_append,
    List.mem_singleton] at hc
  rcases hc with hc | rfl | hc
  · exact (Place.mem_text hc).1
  · decide
  · exact (head.container.not_mem_text c hc).1

theorem exclusive_readings (t : Text) : Exclusive (readColon t) (readBlanks t) := by
  rintro ⟨r, r', hcolon, hblanks⟩
  have hplain := not_isBlank_of_readColon hcolon
  -- a reader that goes by blanks has nowhere to cut
  have hcut : Text.cutLast? Text.isBlank (Text.trim t) = none :=
    Text.cutLast?_of_forall fun c hc => hplain c (Text.mem_of_mem_trim hc)
  rw [readBlanks, hcut] at hblanks
  cases hblanks

/-- The two readings of the ports accept their texts between them, and none accepts a text of the
other. -/
theorem readHead_eq_ok_iff {t : Text} (ht : Text.IsTrimmed t) {r : HostBinding × UInt16} :
    readHead t = .ok r ↔
      ∃ h : Head, h.text = t ∧ (h.place.binding, h.container.port) = r := by
  rw [readHead, (exclusive_readings t).firstReading_eq_ok_iff, readColon_eq_ok_iff,
    readBlanks_eq_ok_iff ht]
  constructor
  · rintro (⟨head, -, htext, hr⟩ | ⟨head, -, htext, hr⟩)
    · exact ⟨head, htext, hr⟩
    · exact ⟨head, htext, hr⟩
  · rintro ⟨⟨place, delimiter, isDelimiter, container, positive⟩, htext, hr⟩
    cases isDelimiter with
    | colon => exact .inl ⟨_, rfl, htext, hr⟩
    | blanks hne hall => exact .inr ⟨_, hall, htext, hr⟩

theorem eq_token_of_readProtocol {t : Text} {p : Protocol} (h : readProtocol t = .ok p) :
    t = p.token := by
  unfold readProtocol Protocol.ofToken? at h
  split_ifs at h with htcp hudp
  · cases h
    exact htcp
  · cases h
    exact hudp

/-- A record is cut at its last slash, if there is one. -/
theorem exists_of_cutProtocol {t head : Text} {p : Protocol} (ht : Text.IsTrimmed t)
    (h : cutProtocol t = .ok (head, p)) :
    Text.IsTrimmed head ∧ ∃ part, t = head ++ protocolText part ∧ p = protocolOf part := by
  unfold cutProtocol at h
  split at h
  · rename_i front rest hcut
    obtain ⟨c, hc, -, rfl⟩ := Text.cutLast?_eq_some_iff.mp hcut
    rw [of_decide_eq_true hc] at ht ⊢
    obtain ⟨q, hprotocol, hresult⟩ := map_eq_ok_iff.mp h
    cases hresult
    have htoken := eq_token_of_readProtocol hprotocol
    -- the record is trimmed, so there are no more blanks than those around the slash
    obtain ⟨before, hbefore, hhead⟩ := ht.exists_front
    obtain ⟨after, hafter, htail⟩ := ht.exists_rest
    refine ⟨Text.isTrimmed_trim front, ?_⟩
    refine ⟨some ⟨before, after, fun x hx => hx.elim (hbefore x) (hafter x), p⟩, ?_, rfl⟩
    rw [protocolText, ProtocolPart.text, ← htoken, ← htail, ← List.append_assoc, ← hhead]
  · cases h
    exact ⟨ht, none, (List.append_nil _).symm, rfl⟩

theorem cutProtocol_append {head : Text} (ht : Text.IsTrimmed head)
    (hslash : ∀ c ∈ head, c ≠ '/') (part : Option ProtocolPart) :
    cutProtocol (head ++ protocolText part) = .ok (head, protocolOf part) := by
  cases part with
  | none =>
    have hcut : Text.cutLast? (· = '/') head = none :=
      Text.cutLast?_of_forall fun c hc => decide_eq_false (hslash c hc)
    simp only [protocolText, List.append_nil, cutProtocol, hcut, protocolOf]
  | some p =>
    have htoken : Text.trim (p.after ++ p.protocol.token) = Text.trim p.protocol.token :=
      Text.trim_blanks_append (fun c hc => p.blank c (.inr hc)) _
    have hhead : Text.trim (head ++ p.before) = head := by
      rw [Text.trim_append_blanks _ fun c hc => p.blank c (.inl hc), Text.trim_eq_self ht]
    simp only [protocolText, cutProtocol, cutLast?_protocolPart, htoken,
      Protocol.readProtocol_token, hhead, protocolOf, Except.map]

theorem read_eq_ok_iff {t : Text} (ht : Text.IsTrimmed t) {s : PortSpec} :
    read t = .ok s ↔ ∃ w : Written, w.text = t ∧ w.spec = s := by
  constructor
  · intro h
    obtain ⟨⟨head, p⟩, hcut, h⟩ := bind_eq_ok_iff.mp h
    obtain ⟨r, hhead, h⟩ := bind_eq_ok_iff.mp h
    cases h
    obtain ⟨htrimmed, part, rfl, rfl⟩ := exists_of_cutProtocol ht hcut
    obtain ⟨head, rfl, rfl⟩ := (readHead_eq_ok_iff htrimmed).mp hhead
    exact ⟨⟨head, part⟩, rfl, rfl⟩
  · rintro ⟨⟨head, part⟩, rfl, rfl⟩
    have hne : head.text ≠ [] := by
      simp [Head.text, head.container.text_ne_nil head.positive]
    have htrimmed : Text.IsTrimmed head.text := by
      refine ⟨fun c hc => ht.head c ?_, fun _ => head.last_text⟩
      rw [Written.text, List.head?_append_of_ne_nil _ hne]
      exact hc
    have hcut := cutProtocol_append htrimmed head.not_mem_text part
    have hhead := (readHead_eq_ok_iff htrimmed).mpr ⟨head, rfl, rfl⟩
    exact bind_eq_ok_iff.mpr ⟨_, hcut, bind_eq_ok_iff.mpr ⟨_, hhead, rfl⟩⟩

/-- `PortSpec.parse` reads the texts that are `Written` but for blanks around them, and no others;
the parts are determined by the text. -/
theorem parse_iff_written (t : Text) :
    (∀ s, parse t = .ok s ↔ ∃ w : Written, w.text = Text.trim t ∧ w.spec = s) ∧
      (∀ w w' : Written, w.text = Text.trim t → w'.text = Text.trim t → w = w') ∧
      ((∀ w : Written, w.text ≠ Text.trim t) → ∃ e, parse t = .error e) := by
  have hread : ∀ s, parse t = .ok s ↔ ∃ w : Written, w.text = Text.trim t ∧ w.spec = s := by
    intro s
    rw [← read_eq_ok_iff (Text.isTrimmed_trim t), parse, Record.readSingle]
    split
    · rename_i hempty
      rw [List.isEmpty_iff.mp hempty]
      -- there is no port binding without a text
      constructor
      · intro h
        cases h
      · intro h
        cases h
    · exact Record.read_eq_ok_iff
  refine ⟨hread, fun w w' hw hw' => Written.text_injective (hw.trans hw'.symm), ?_⟩
  intro hnone
  cases hparse : parse t with
  | error e => exact ⟨e, rfl⟩
  | ok s =>
    obtain ⟨w, hw, -⟩ := (hread s).mp hparse
    exact absurd hw (hnone w)

/-- Both delimiters, a port without digits, and one with leading zeros. -/
example : parse "10.0.0.1: 09000 / udp".toList = .ok ⟨some "10.0.0.1".toList, 0, 9000, .udp⟩ := by
  rfl

end BuildStep.PortSpec
