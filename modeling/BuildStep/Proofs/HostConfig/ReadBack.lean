import BuildStep.HostConfig.Basic
import BuildStep.Proofs.HostConfig.Entries
import BuildStep.Proofs.Record.Ports

/-!
# What a host configuration keeps

A host configuration writes bind mounts, port bindings and links in the engine's words.  Nothing of
what was read is lost on the way: the texts in it can be joined into batches, and these are read as
what the configuration was built from.

## Key results

- `Bind.parseAll_render`, `Link.parseAll_render`: batches of bind mounts and links
- `PortSpec.parseBindings_of_perm`: a batch of port bindings, in any order
- `HostConfig.parseAll_ofSpecs`: the three of them in one configuration
-/

namespace BuildStep

open Record (bind_eq_ok_iff map_eq_ok_iff)
open scoped List

/-! ## Bind mounts and links -/

/-- Bind mounts that were read can be written one to a line. -/
theorem Bind.parseAll_render {batch : Text} {binds : List Bind} (h : parseAll batch = .ok binds) :
    parseAll (List.intercalate ['\n'] (binds.map render)) = .ok binds := by
  refine Record.readAll_map_render ?_ h
  intro t b ht hread
  exact ⟨isRecord_render ht hread, read_render (valid_of_read hread)⟩

/-- Links that were read can be written with commas in between. -/
theorem Link.parseAll_render {batch : Text} {links : List Link} (h : parseAll batch = .ok links) :
    parseAll (List.intercalate [','] (links.map render)) = .ok links := by
  refine Record.readAll_map_render ?_ h
  intro t l ht hread
  exact ⟨isRecord_render ht hread, read_render (valid_of_read hread)⟩

/-! ## Port bindings -/

theorem PortBindings.ofSpecs_eq (specs : List PortSpec) :
    ofSpecs specs = .ofList (specs.map fun s => (s.exposed, s.host)) := by
  rw [SortedMap.ofList, List.foldl_map]
  rfl

/-- The bindings of a map make up the map again, in whatever order they come. -/
theorem PortBindings.ofSpecs_of_perm {ports : PortBindings} {specs : List PortSpec}
    (h : specs ~ ports.toSpecs) : ofSpecs specs = ports := by
  have hentries : ports.toSpecs.map (fun s => (s.exposed, s.host)) = ports.entries := by
    rw [toSpecs, List.map_map]
    exact List.map_id _
  rw [ofSpecs_eq]
  apply SortedMap.ofList_of_perm
  calc specs.map (fun s => (s.exposed, s.host))
      _ ~ ports.toSpecs.map (fun s => (s.exposed, s.host)) := h.map _
      _ ~ ports.entries := by rw [hentries]

namespace PortSpec

/-- All bindings that were read can be written. -/
theorem valid_of_mem_toSpecs {batch : Text} {ports : PortBindings}
    (h : parseBindings batch = .ok ports) : ∀ s ∈ ports.toSpecs, s.Valid := by
  intro s hs
  obtain ⟨specs, hspecs, rfl⟩ := map_eq_ok_iff.mp h
  obtain ⟨entry, hentry, rfl⟩ := List.mem_map.mp hs
  rw [PortBindings.ofSpecs_eq] at hentry
  obtain ⟨s, hmem, rfl⟩ := List.mem_map.mp (SortedMap.mem_entries_ofList hentry)
  -- a binding in the map is one of those that were read
  obtain ⟨record, -, hread⟩ := Record.exists_of_mem_readAll hspecs hmem
  exact valid_of_read hread

/-- Lines for the bindings of a map are read as this map, in whatever order they come. -/
theorem parseBindings_of_perm {ports : PortBindings} (hvalid : ∀ s ∈ ports.toSpecs, s.Valid)
    {lines : List Text} (h : lines ~ ports.toSpecs.map render) :
    parseBindings (List.intercalate ['\n'] lines) = .ok ports := by
  have hreads : List.Forall₂ (fun t s => read t = .ok s) (ports.toSpecs.map render)
      ports.toSpecs := by
    rw [List.forall₂_map_left_iff, List.forall₂_same]
    intro s hs
    exact read_render (hvalid s hs)
  obtain ⟨specs, hlines, hspecs⟩ := List.perm_comp_forall₂ h hreads
  have hrecords : ∀ t ∈ lines, Record.IsRecord '\n' t := by
    intro t ht
    obtain ⟨s, hs, rfl⟩ := List.mem_map.mp (h.mem_iff.mp ht)
    exact isRecord_render (hvalid s hs)
  have hall : parseAll (List.intercalate ['\n'] lines) = .ok specs :=
    Record.readAll_intercalate hrecords hlines
  refine map_eq_ok_iff.mpr ⟨specs, hall, ?_⟩
  exact PortBindings.ofSpecs_of_perm hspecs

end PortSpec

/-! ## Keys in the engine's words -/

theorem Protocol.token_injective {p q : Protocol} (h : p.token = q.token) : p = q := by
  have hp := ofToken?_token p
  rw [h, ofToken?_token q] at hp
  exact (Option.some.inj hp).symm

/-- Different ports are written differently. -/
theorem ExposedPort.render_injective {a b : ExposedPort} (h : a.render = b.render) : a = b := by
  obtain ⟨p, x⟩ := a
  obtain ⟨q, y⟩ := b
  have hplain : ∀ n : Nat, '/' ∉ Decimal.digits n := by
    intro n hslash
    exact absurd (Decimal.isDigit_of_mem_digits hslash) (by decide)
  -- the slash stands where the digits end
  have hsplit := congrArg (List.splitOn '/') h
  simp only [render] at hsplit
  rw [List.splitOn_append_cons_self_of_not_mem (hplain _),
    List.splitOn_append_cons_self_of_not_mem (hplain _)] at hsplit
  obtain ⟨hdigits, htoken⟩ := List.cons.inj hsplit
  have hport : p = q := UInt16.toNat.inj (Decimal.digits_injective hdigits)
  have hwhole : ∀ r : Protocol, r.token.splitOn '/' = [r.token] := by
    intro r
    cases r <;> rfl
  rw [hwhole, hwhole] at htoken
  have hprotocol : x = y := Protocol.token_injective (List.cons.inj htoken).1
  rw [hport, hprotocol]

theorem PortBindings.nodup_render (ports : PortBindings) :
    (ports.entries.map fun entry => entry.1.render).Nodup := by
  have hkeys := ports.nodup_keys.map (f := ExposedPort.render) fun a b => ExposedPort.render_injective
  rwa [List.map_map] at hkeys

/-- The line `[HostIp:]HostPort:key` that asks for a binding in the engine's words. -/
def EnginePort.line (key : Text) (p : EnginePort) : Text :=
  (match p.hostIp with
    | some ip => ip ++ [':']
    | none => []) ++
  p.hostPort ++ ':' :: key

theorem EnginePort.line_ofHost (entry : ExposedPort × HostBinding) :
    (EnginePort.ofHost entry.2).line entry.1.render = (PortSpec.ofEntry entry).render := by
  obtain ⟨exposed, host⟩ := entry
  simp only [line, ofHost, HostBinding.isEphemeral, decide_eq_true_eq]
  rfl

namespace HostConfig

/-- The lines for all bindings of a configuration. -/
def portLines (h : HostConfig) : List Text :=
  h.portBindings.entries.flatMap fun entry => entry.2.map (EnginePort.line entry.1)

variable (binds : List Bind) (ports : PortBindings) (links : List Link)

/-- The keys of a configuration are those of the map that it is built from, each with one binding. -/
theorem portBindings_perm :
    (ofSpecs binds ports links).portBindings.entries ~ ports.entries.map portEntry := by
  apply SortedMap.entries_ofList_perm
  rw [List.map_map]
  exact ports.nodup_render

theorem portLines_perm : (ofSpecs binds ports links).portLines ~ ports.toSpecs.map PortSpec.render := by
  have hlines : (ports.entries.map portEntry).flatMap
      (fun entry => entry.2.map (EnginePort.line entry.1)) = ports.toSpecs.map PortSpec.render := by
    rw [List.flatMap_map, PortBindings.toSpecs, List.map_map, List.map_eq_flatMap]
    congr 1
    funext entry
    exact congrArg (fun t => [t]) (EnginePort.line_ofHost entry)
  rw [← hlines]
  exact (portBindings_perm binds ports links).flatMap_right _

theorem keys_exposed :
    ports.exposed.entries.map Prod.fst =
      (ofSpecs binds ports links).portBindings.entries.map Prod.fst := by
  apply SortedMap.keys_eq_of_perm
  have hexposed : ports.exposed.entries ~ ports.entries.map fun entry => (entry.1.render, ()) := by
    apply SortedMap.entries_ofList_perm
    rw [List.map_map]
    exact ports.nodup_render
  calc ports.exposed.entries.map Prod.fst
      _ ~ (ports.entries.map fun entry => (entry.1.render, ())).map Prod.fst := hexposed.map _
      _ ~ (ports.entries.map portEntry).map Prod.fst := by rw [List.map_map, List.map_map]; rfl
      _ ~ _ := ((portBindings_perm binds ports links).map Prod.fst).symm

/-- `HostConfig.ofSpecs` loses nothing: `Bind.parseAll`, `Link.parseAll` and
`PortSpec.parseBindings` read back what it was built from, the last of them from `portLines` in any
order. -/
theorem parseAll_ofSpecs {b p l : Text} {binds : List Bind} {ports : PortBindings}
    {links : List Link} (hbinds : Bind.parseAll b = .ok binds)
    (hports : PortSpec.parseBindings p = .ok ports) (hlinks : Link.parseAll l = .ok links) :
    let h := ofSpecs binds ports links
    Bind.parseAll (List.intercalate ['\n'] h.binds) = .ok binds ∧
      Link.parseAll (List.intercalate [','] h.links) = .ok links ∧
      h.portBindings.entries ~ ports.entries.map portEntry ∧
      (∀ entry ∈ h.portBindings.entries, ∃ place, entry.2 = [place]) ∧
      (∀ lines, lines ~ h.portLines →
        PortSpec.parseBindings (List.intercalate ['\n'] lines) = .ok ports) ∧
      ports.exposed.entries.map Prod.fst = h.portBindings.entries.map Prod.fst := by
  intro h
  have hperm : h.portBindings.entries ~ ports.entries.map portEntry :=
    portBindings_perm binds ports links
  refine ⟨Bind.parseAll_render hbinds, Link.parseAll_render hlinks, hperm, ?_, ?_,
    keys_exposed binds ports links⟩
  · intro entry hentry
    obtain ⟨bound, -, rfl⟩ := List.mem_map.mp (hperm.mem_iff.mp hentry)
    exact ⟨.ofHost bound.2, rfl⟩
  · intro lines hlines
    have hvalid := PortSpec.valid_of_mem_toSpecs hports
    exact PortSpec.parseBindings_of_perm hvalid (hlines.trans (portLines_perm binds ports links))

/-- A mode that could be a path, a path that could be a mode, a port that the engine chooses, and keys
whose order as text is not that of their numbers. -/
theorem parseAll_ofSpecs_of_batches :
    let binds : List Bind := [⟨"/src".toList, "rw".toList, .unspecified⟩,
      ⟨"a b".toList, "/b".toList, .readOnly⟩]
    let ports : PortBindings := .ofSpecs [⟨none, 0, 9, .udp⟩,
      ⟨some "127.0.0.1".toList, 8080, 80, .tcp⟩]
    let links : List Link := [⟨"db".toList, "postgres".toList⟩]
    let h := ofSpecs binds ports links
    Bind.parseAll (List.intercalate ['\n'] h.binds) = .ok binds ∧
      Link.parseAll (List.intercalate [','] h.links) = .ok links ∧
      h.portBindings.entries ~ ports.entries.map portEntry ∧
      (∀ entry ∈ h.portBindings.entries, ∃ place, entry.2 = [place]) ∧
      (∀ lines, lines ~ h.portLines →
        PortSpec.parseBindings (List.intercalate ['\n'] lines) = .ok ports) ∧
      ports.exposed.entries.map Prod.fst = h.portBindings.entries.map Prod.fst :=
  parseAll_ofSpecs (b := "/src rw\na b:/b:ro".toList) (p := ":9/udp\n127.0.0.1:8080 80".toList)
    (l := "db postgres".toList) rfl rfl rfl

end HostConfig

end BuildStep
