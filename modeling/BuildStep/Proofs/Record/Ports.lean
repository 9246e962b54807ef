import BuildStep.Port.Grammar
import BuildStep.Proofs.Record.Fields

/-!
# Records of port bindings

A record has up to four parts, which are cut off at its end one after the other: the protocol, the
port of the container, the port of the host, and an address.  Every port binding that was read can
be written, and is read as the same port binding again.

## Key results

- `valid_of_read`: what was read has a container port, and a dotted quad for an address
- `read_render`: a port binding is read as it is written
- `isRecord_render`: it is written as a record of the same batch
-/

namespace BuildStep

/-! ## Characters of what is written -/

/-- No blank and no delimiter is a digit. -/
theorem Text.plain_of_isDigit {c : Char} (h : c.isDigit = true) :
    isBlank c = false ∧ c ≠ ':' ∧ c ≠ '/' := by
  have hrange : 48 ≤ c.toNat ∧ c.toNat ≤ 57 := Char.isDigit_iff_toNat.mp h
  have hblank : isBlank c = false := by
    simp only [isBlank, blankRanges, List.any_cons, List.any_nil, Bool.or_false,
      Bool.or_eq_false_iff, Bool.and_eq_false_iff, decide_eq_false_iff_not]
    omega
  exact ⟨hblank, Decimal.ne_of_isDigit h (by decide), Decimal.ne_of_isDigit h (by decide)⟩

theorem Decimal.digits_injective {m n : Nat} (h : digits m = digits n) : m = n := by
  have hm := read?_digits m
  rw [h, read?_digits n] at hm
  exact (Option.some.inj hm).symm

theorem Protocol.readProtocol_token (p : Protocol) :
    PortSpec.readProtocol (Text.trim p.token) = .ok p := by
  cases p <;> rfl

theorem Protocol.not_mem_token (p : Protocol) :
    ∀ c ∈ p.token, Text.isBlank c = false ∧ c ≠ ':' ∧ c ≠ '/' := by
  have hall : p.token.all (fun c => !Text.isBlank c && c != ':' && c != '/') = true := by
    cases p <;> rfl
  intro c hc
  simpa [and_assoc] using List.all_eq_true.mp hall c hc

namespace PortSpec

open Record (bind_eq_ok_iff map_eq_ok_iff)

/-- The port binding can stand in a record. -/
structure Valid (s : PortSpec) : Prop where
  containerPort : s.containerPort ≠ 0
  hostIp : ∀ ip, s.hostIp = some ip → isDottedQuad ip = true

/-! ## What was read -/

theorem containerPort_of_readContainerPort {t : Text} {p : UInt16}
    (h : readContainerPort t = .ok p) : p ≠ 0 := by
  rw [readContainerPort] at h
  split at h
  · cases h
  · obtain ⟨port, -, h⟩ := bind_eq_ok_iff.mp h
    split at h
    · cases h
    · rename_i hport
      cases h
      exact hport

theorem hostIp_of_readHost {t : Text} {host : HostBinding} (h : readHost t = .ok host) :
    ∀ ip, host.hostIp = some ip → isDottedQuad ip = true := by
  intro ip hip
  rw [readHost] at h
  split at h
  · split at h
    · rename_i hquad
      obtain ⟨port, -, rfl⟩ := map_eq_ok_iff.mp h
      cases hip
      exact hquad
    · cases h
  · obtain ⟨port, -, rfl⟩ := map_eq_ok_iff.mp h
    cases hip

theorem valid_of_ofParts {host container : Text} {r : HostBinding × UInt16}
    (h : ofParts host container = .ok r) (protocol : Protocol) :
    Valid ⟨r.1.hostIp, r.1.hostPort, r.2, protocol⟩ := by
  obtain ⟨port, hport, h⟩ := bind_eq_ok_iff.mp h
  obtain ⟨place, hplace, h⟩ := bind_eq_ok_iff.mp h
  cases h
  exact ⟨containerPort_of_readContainerPort hport, hostIp_of_readHost hplace⟩

theorem valid_of_read {t : Text} {s : PortSpec} (h : read t = .ok s) : s.Valid := by
  obtain ⟨⟨head, protocol⟩, -, h⟩ := bind_eq_ok_iff.mp h
  obtain ⟨r, hhead, h⟩ := bind_eq_ok_iff.mp h
  cases h
  -- both ways to cut the ports off end in the same reading
  rcases firstReading_eq_ok hhead with hhead | hhead
  · rw [readColon] at hhead
    split at hhead
    · exact valid_of_ofParts hhead protocol
    · cases hhead
  · rw [readBlanks] at hhead
    split at hhead
    · exact valid_of_ofParts hhead protocol
    · cases hhead

/-! ## What is written -/

/-- The place on the host as it is written before the port of the container. -/
def renderHost (h : HostBinding) : Text :=
  (match h.hostIp with
    | some ip => ip ++ [':']
    | none => []) ++
  (if h.hostPort = 0 then [] else Decimal.digits h.hostPort.toNat)

theorem render_eq (s : PortSpec) :
    s.render = (renderHost s.host ++ ':' :: Decimal.digits s.containerPort.toNat) ++
      '/' :: s.protocol.token := by
  obtain ⟨ip, hostPort, containerPort, protocol⟩ := s
  simp only [render, renderHost, host, exposed, ExposedPort.render, List.append_assoc,
    List.cons_append]
  rfl

theorem readPort_digits (field : PortField) (p : UInt16) :
    readPort field (Decimal.digits p.toNat) = .ok p := by
  have hle : p.toNat ≤ maxPort := by
    have hlt := p.toNat_lt
    rw [maxPort]
    omega
  simp only [readPort, Decimal.read?_digits, if_pos hle, UInt16.ofNat_toNat]

theorem readContainerPort_digits {p : UInt16} (hp : p ≠ 0) :
    readContainerPort (Decimal.digits p.toNat) = .ok p := by
  have hne : (Decimal.digits p.toNat).isEmpty = false := by
    simp [Decimal.digits]
  simp only [readContainerPort, hne, Bool.false_eq_true, if_false, readPort_digits]
  exact if_neg hp

/-- A port of the host is left out if the engine chooses it, and is read as such. -/
theorem readHostPort_digits (p : UInt16) :
    readHostPort (if p = 0 then [] else Decimal.digits p.toNat) = .ok p := by
  split
  · rename_i hp
    rw [hp]
    rfl
  · have hne : (Decimal.digits p.toNat).isEmpty = false := by
      simp [Decimal.digits]
    simp only [readHostPort, hne, Bool.false_eq_true, if_false, readPort_digits]

/-- An address has only digits and dots in it. -/
theorem mem_of_isDottedQuad {ip : Text} (h : isDottedQuad ip = true) :
    ∀ c ∈ ip, Text.isBlank c = false ∧ c ≠ ':' ∧ c ≠ '/' := by
  intro c hc
  have hjoin : List.intercalate ['.'] (ip.splitOn '.') = ip := List.intercalate_splitOn '.'
  rw [← hjoin] at hc
  rcases Text.mem_intercalate hc with hc | ⟨group, hgroup, hc⟩
  · rw [List.mem_singleton.mp hc]
    decide
  · simp only [isDottedQuad, Bool.and_eq_true, List.all_eq_true] at h
    exact Text.plain_of_isDigit ((h.2 group hgroup).2 c hc)

theorem mem_hostPort {p : UInt16} {c : Char}
    (h : c ∈ if p = 0 then [] else Decimal.digits p.toNat) :
    Text.isBlank c = false ∧ c ≠ ':' ∧ c ≠ '/' := by
  split at h
  · cases h
  · exact Text.plain_of_isDigit (Decimal.isDigit_of_mem_digits h)

/-- A place on the host has colons in it, but neither blanks nor slashes. -/
theorem mem_renderHost {h : HostBinding} (hip : ∀ ip, h.hostIp = some ip → isDottedQuad ip = true)
    {c : Char} (hc : c ∈ renderHost h) : Text.isBlank c = false ∧ c ≠ '/' := by
  rw [renderHost, List.mem_append] at hc
  rcases hc with hc | hc
  · cases haddress : h.hostIp with
    | none =>
      rw [haddress] at hc
      cases hc
    | some ip =>
      rw [haddress, List.mem_append, List.mem_singleton] at hc
      rcases hc with hc | rfl
      · have hplain := mem_of_isDottedQuad (hip ip haddress) c hc
        exact ⟨hplain.1, hplain.2.2⟩
      · decide
  · have hplain := mem_hostPort hc
    exact ⟨hplain.1, hplain.2.2⟩

/-- A place on the host is read as it is written. -/
theorem readHost_renderHost {h : HostBinding}
    (hip : ∀ ip, h.hostIp = some ip → isDottedQuad ip = true) : readHost (renderHost h) = .ok h := by
  obtain ⟨address, port⟩ := h
  have hport : ∀ c ∈ (if port = 0 then [] else Decimal.digits port.toNat),
      decide (c = ':') = false := by
    intro c hc
    exact decide_eq_false (mem_hostPort hc).2.1
  cases address with
  | none =>
    have hcut := Text.cutLast?_of_forall hport
    simp only [readHost, renderHost, List.nil_append, hcut, readHostPort_digits, Except.map]
  | some ip =>
    have hcut := Text.cutLast?_append_cons (p := (· = ':')) (decide_eq_true rfl) hport ip
    have hquad := hip ip rfl
    simp only [readHost, renderHost, List.append_assoc, List.cons_append, List.nil_append, hcut,
      hquad, if_true, readHostPort_digits, Except.map]

/-- The ports of a record are read as they are written. -/
theorem readHead_render {s : PortSpec} (hs : s.Valid) :
    readHead (renderHost s.host ++ ':' :: Decimal.digits s.containerPort.toNat) =
      .ok (s.host, s.containerPort) := by
  have hdigits : ∀ c ∈ Decimal.digits s.containerPort.toNat, decide (c = ':') = false := by
    intro c hc
    have hplain := Text.plain_of_isDigit (Decimal.isDigit_of_mem_digits hc)
    exact decide_eq_false hplain.2.1
  have hcut := Text.cutLast?_append_cons (p := (· = ':')) (decide_eq_true rfl) hdigits
    (renderHost s.host)
  have hcolon : readColon (renderHost s.host ++ ':' :: Decimal.digits s.containerPort.toNat) =
      .ok (s.host, s.containerPort) := by
    simp only [readColon, hcut, ofParts]
    rw [readContainerPort_digits hs.containerPort, readHost_renderHost hs.hostIp]
    rfl
  rw [readHead, hcolon, firstReading_ok]

theorem mem_head {s : PortSpec} (hs : s.Valid) {c : Char}
    (hc : c ∈ renderHost s.host ++ ':' :: Decimal.digits s.containerPort.toNat) :
    Text.isBlank c = false ∧ c ≠ '/' := by
  rw [List.mem_append, List.mem_cons] at hc
  rcases hc with hc | rfl | hc
  · exact mem_renderHost hs.hostIp hc
  · decide
  · have hplain := Text.plain_of_isDigit (Decimal.isDigit_of_mem_digits hc)
    exact ⟨hplain.1, hplain.2.2⟩

/-- A port binding is read as it is written. -/
theorem read_render {s : PortSpec} (hs : s.Valid) : read s.render = .ok s := by
  have hprotocol : ∀ c ∈ s.protocol.token, decide (c = '/') = false := by
    intro c hc
    exact decide_eq_false (s.protocol.not_mem_token c hc).2.2
  have hcut := Text.cutLast?_append_cons (p := (· = '/')) (decide_eq_true rfl) hprotocol
    (renderHost s.host ++ ':' :: Decimal.digits s.containerPort.toNat)
  have htrim : Text.trim (renderHost s.host ++ ':' :: Decimal.digits s.containerPort.toNat) =
      renderHost s.host ++ ':' :: Decimal.digits s.containerPort.toNat :=
    Text.trim_eq_self (Text.isTrimmed_of_forall fun c hc => (mem_head hs hc).1)
  have hpieces : cutProtocol s.render =
      .ok (renderHost s.host ++ ':' :: Decimal.digits s.containerPort.toNat, s.protocol) := by
    rw [render_eq, cutProtocol, hcut]
    simp only [Protocol.readProtocol_token, htrim, Except.map]
  refine bind_eq_ok_iff.mpr ⟨_, hpieces, ?_⟩
  exact bind_eq_ok_iff.mpr ⟨_, readHead_render hs, rfl⟩

/-- It is written without blanks, and so on one line. -/
theorem isRecord_render {s : PortSpec} (hs : s.Valid) : Record.IsRecord '\n' s.render := by
  have hblank : ∀ c ∈ s.render, Text.isBlank c = false := by
    intro c hc
    rw [render_eq, List.mem_append, List.mem_cons] at hc
    rcases hc with hc | rfl | hc
    · exact (mem_head hs hc).1
    · decide
    · exact (s.protocol.not_mem_token c hc).1
  have hne : s.render ≠ [] := by simp [render]
  refine Record.isRecord_of_forall hne hblank ?_
  intro hbreak
  exact absurd (hblank _ hbreak) (by decide)

end PortSpec

end BuildStep
