import BuildStep.Proofs.HostConfig.ReadBack

/-!
# What a map of port bindings holds

Bindings are collected one after the other, and a later one takes the place of an earlier one for
the same port.  What a map holds is said by the list of bindings that it was collected from: for
each port the last one.  The order of the list counts only among bindings of one port.

## Key results

- `get?_ofSpecs`, `size_ofSpecs`: the last binding of each port
- `ordered_entries`: ports in ascending order, `tcp` before `udp`
- `ofSpecs_of_forall_filter`: what of the order of a list counts
- `collected_ofSpecs`: all of it, and what adding one more binding does
-/

namespace BuildStep

/-- The first port comes before the second: by its number, and then `tcp` before `udp`. -/
def ExposedPort.Before (a b : ExposedPort) : Prop :=
  a.port < b.port ∨ a.port = b.port ∧ a.protocol = .tcp ∧ b.protocol = .udp

/-- The order of ports is by number, and then by protocol. -/
theorem ExposedPort.before_of_compare {a b : ExposedPort} (h : compare a b = .lt) : a.Before b := by
  have hrank : a.rank < b.rank := Nat.compare_eq_lt.mp h
  obtain ⟨p, x⟩ := a
  obtain ⟨q, y⟩ := b
  have hx := x.rank_le_one
  have hy := y.rank_le_one
  simp only [rank] at hrank
  by_cases hport : p = q
  · -- of one port the places differ by the protocol alone
    subst hport
    have hprotocol : x.rank < y.rank := by omega
    cases x with
    | udp => exact absurd hprotocol (Nat.not_lt.mpr hy)
    | tcp =>
      cases y with
      | tcp => exact absurd hprotocol (Nat.lt_irrefl _)
      | udp => exact .inr ⟨rfl, rfl, rfl⟩
  · left
    have hne : p.toNat ≠ q.toNat := fun h => hport (UInt16.toNat.inj h)
    show p < q
    rw [UInt16.lt_iff_toNat_lt]
    omega

namespace PortBindings

theorem get?_ofSpecs (specs : List PortSpec) (port : ExposedPort) :
    (ofSpecs specs).get? port = (specs.filter (·.exposed = port)).getLast?.map PortSpec.host := by
  rw [ofSpecs_eq, SortedMap.get?_ofList, List.filter_map, List.getLast?_map, Option.map_map]
  rfl

theorem size_ofSpecs (specs : List PortSpec) :
    (ofSpecs specs).size = (specs.map PortSpec.exposed).dedup.length := by
  rw [ofSpecs_eq, SortedMap.size_ofList, List.map_map]
  rfl

/-- Bindings are listed in the order of their ports. -/
theorem ordered_entries (m : PortBindings) : m.entries.Pairwise fun a b => a.1.Before b.1 :=
  m.sorted.imp ExposedPort.before_of_compare

/-- Lists in which the bindings of each port come in the same order make up the same map. -/
theorem ofSpecs_of_forall_filter {specs specs' : List PortSpec}
    (h : ∀ port, specs'.filter (·.exposed = port) = specs.filter (·.exposed = port)) :
    ofSpecs specs' = ofSpecs specs := by
  apply SortedMap.eq_of_get?
  intro port
  rw [get?_ofSpecs, get?_ofSpecs, h]

theorem ofSpecs_concat (specs : List PortSpec) (s : PortSpec) :
    ofSpecs (specs ++ [s]) = (ofSpecs specs).insertSpec s := by
  simp [ofSpecs]

/-- Adding a binding gives back what was found for its port, and changes nothing else. -/
theorem exchangeSpec_eq (m : PortBindings) (s : PortSpec) :
    m.exchangeSpec s = (m.get? s.exposed, m.insertSpec s) :=
  m.exchange_eq s.exposed s.host

theorem get?_insertSpec (m : PortBindings) (s : PortSpec) (port : ExposedPort) :
    (m.insertSpec s).get? port = if port = s.exposed then some s.host else m.get? port :=
  m.get?_insert s.exposed port s.host

/-- `PortBindings.ofSpecs` keeps the last binding of each port, in the order of the ports, as
`exchangeSpec` does one binding at a time.  Lists that agree port by port make up the same map, and
`toSpecs` is one of them. -/
theorem collected_ofSpecs (specs : List PortSpec) :
    (∀ port, (ofSpecs specs).get? port =
      (specs.filter (·.exposed = port)).getLast?.map PortSpec.host) ∧
    (ofSpecs specs).size = (specs.map PortSpec.exposed).dedup.length ∧
    (ofSpecs specs).entries.Pairwise (fun a b => a.1.Before b.1) ∧
    (∀ s, ((ofSpecs specs).exchangeSpec s).2 = ofSpecs (specs ++ [s]) ∧
      ((ofSpecs specs).exchangeSpec s).1 = (ofSpecs specs).get? s.exposed ∧
      ((ofSpecs specs).exchangeSpec s).2.get? s.exposed = some s.host ∧
      ∀ port, port ≠ s.exposed →
        ((ofSpecs specs).exchangeSpec s).2.get? port = (ofSpecs specs).get? port) ∧
    (∀ specs', (∀ port, specs'.filter (·.exposed = port) = specs.filter (·.exposed = port)) →
      ofSpecs specs' = ofSpecs specs) ∧
    ofSpecs (ofSpecs specs).toSpecs = ofSpecs specs := by
  refine ⟨get?_ofSpecs specs, size_ofSpecs specs, ordered_entries _, ?_, ?_, ?_⟩
  · intro s
    rw [exchangeSpec_eq]
    refine ⟨(ofSpecs_concat specs s).symm, rfl, ?_, ?_⟩
    · rw [get?_insertSpec, if_pos rfl]
    · intro port hport
      rw [get?_insertSpec, if_neg hport]
  · intro specs'
    exact ofSpecs_of_forall_filter
  · exact ofSpecs_of_perm (List.Perm.refl _)

/-- A second binding of a port gives back the first, and comes in its place. -/
example :
    ((ofSpecs [⟨none, 80, 8080, .udp⟩, ⟨none, 81, 8080, .tcp⟩]).exchangeSpec
      ⟨none, 82, 8080, .udp⟩).1 = some ⟨none, 80⟩ := by
  rfl

end PortBindings

end BuildStep
