import BuildStep.Bind.Json
import BuildStep.HostConfig.Json
import BuildStep.Link.Json
import BuildStep.Port.Json
import BuildStep.Proofs.HostConfig.Entries
import BuildStep.Proofs.Json.Faithful

/-!
# Records survive as JSON

The fields of each record are written under the names by which they are read.  A field that is left
out is one whose value is taken in its place: an address that stands for all, or a part of the host
configuration in which there is nothing.

## Key results

- `Bind.faithful`, `Link.faithful`, `PortSpec.faithful`, `HostBinding.faithful`,
  `EnginePort.faithful`, `HostConfig.faithful`: reading undoes writing for each kind of record
- `survives_text`: so it is with their texts, and what was read once is not changed any more
-/

namespace BuildStep

open JsonTree

/-! ## Bind mounts and links -/

theorem AccessMode.faithful : Faithful toJson ofJson? :=
  faithful_choice ofName?_name

theorem Bind.faithful : Faithful toJson ofJson? where
  wellFormed b :=
    wellFormed_ofFields ⟨faithful_ofText.wellFormed _, faithful_ofText.wellFormed _,
      AccessMode.faithful.wellFormed _⟩
  reads b := by
    have hfields : b.toJson.fields? fieldNames .exact =
        some [some (.ofText b.hostPath), some (.ofText b.containerPath), some b.mode.toJson] :=
      fields?_ofFields (by simp) _ _
    simp [ofJson?, hfields, faithful_ofText.reads, AccessMode.faithful.reads]

theorem Link.faithful : Faithful toJson ofJson? where
  wellFormed l :=
    wellFormed_ofFields ⟨faithful_ofText.wellFormed _, faithful_ofText.wellFormed _⟩
  reads l := by
    have hfields : l.toJson.fields? fieldNames .exact =
        some [some (.ofText l.name), some (.ofText l.knownAs)] :=
      fields?_ofFields (by simp) _ _
    simp [ofJson?, hfields, faithful_ofText.reads]

/-! ## Port bindings -/

theorem Protocol.faithful : Faithful toJson ofJson? :=
  faithful_choice ofToken?_token

theorem HostBinding.faithful : Faithful toJson ofJson? where
  wellFormed h :=
    wellFormed_ofFields ⟨faithful_ofText?.wellFormed _, faithful_port.wellFormed _⟩
  reads h := by
    have hfields : h.toJson.fields? fieldNames .exact =
        some [some (.ofText? h.hostIp), some (.ofNat h.hostPort.toNat)] :=
      fields?_ofFields (by simp) _ _
    simp [ofJson?, hfields, faithful_ofText?.reads, faithful_port.reads]

theorem PortSpec.faithful : Faithful toJson ofJson? where
  wellFormed s :=
    wellFormed_ofFields ⟨faithful_ofText?.wellFormed _, faithful_port.wellFormed _, faithful_port.wellFormed _,
      Protocol.faithful.wellFormed _⟩
  reads s := by
    have hfields : s.toJson.fields? fieldNames .exact =
        some [some (.ofText? s.hostIp), some (.ofNat s.hostPort.toNat),
          some (.ofNat s.containerPort.toNat), some s.protocol.toJson] :=
      fields?_ofFields (by simp) _ _
    simp [ofJson?, hfields, faithful_ofText?.reads, faithful_port.reads, Protocol.faithful.reads]

/-! ## The host configuration -/

theorem EnginePort.faithful : Faithful toJson ofJson? where
  wellFormed p := by
    obtain ⟨ip, port⟩ := p
    cases ip with
    | none => exact wellFormed_ofFields (faithful_ofText.wellFormed port)
    | some ip =>
      exact wellFormed_ofFields ⟨faithful_ofText.wellFormed ip, faithful_ofText.wellFormed port⟩
  reads p := by
    obtain ⟨ip, port⟩ := p
    have hfields : (toJson ⟨ip, port⟩).fields? fieldNames .exact =
        some [ip.map .ofText, some (.ofText port)] := by
      cases ip with
      | none => exact fields?_ofFields (by simp) _ _
      | some ip => exact fields?_ofFields (by simp) _ _
    simp [ofJson?, hfields, optionalText?_map_ofText, faithful_ofText.reads]

theorem SortedMap.toMembers_eq {ν : Type} (f : ν → JsonTree) (m : SortedMap Text ν) :
    m.toMembers f =
      (m.entries.map fun entry => (entry.1, f entry.2)).map
        fun member => (JsonLiteral.escape member.1, member.2) := by
  rw [List.map_map]
  rfl

namespace HostConfig

/-- Port bindings are written as an object with an array for each port. -/
def portsToJson (m : SortedMap Text (List EnginePort)) : JsonTree :=
  .object (m.toMembers fun places => .array (places.map EnginePort.toJson))

/-- The entries of a map are its members, and they make up the map again. -/
theorem faithful_ports : Faithful portsToJson portsOfJson? where
  wellFormed m := by
    rw [portsToJson, SortedMap.toMembers_eq]
    refine wellFormed_object fun member hmember => ?_
    obtain ⟨entry, -, rfl⟩ := List.mem_map.mp hmember
    exact EnginePort.faithful.array.wellFormed entry.2
  reads m := by
    have hplaces : ∀ places : List EnginePort,
        (places.map EnginePort.toJson).mapM EnginePort.ofJson? = some places :=
      EnginePort.faithful.array.reads
    rw [portsToJson, SortedMap.toMembers_eq, portsOfJson?, named?_map_escape]
    simp only [Option.bind_eq_bind, Option.bind_some]
    rw [mapM_map_eq_some, Option.bind_some, SortedMap.ofList_of_perm (List.Perm.refl m.entries)]
    · rfl
    · intro entry
      simp [elements?, hplaces]

theorem lookup_fieldUnless (leftOut : Bool) (name : String) (value : JsonTree) (key : String) :
    (fieldUnless leftOut name value).lookup key =
      if key = name ∧ leftOut = false then some value else none := by
  cases leftOut with
  | true => simp [fieldUnless]
  | false =>
    by_cases hkey : key = name
    · simp [fieldUnless, hkey]
    · simp [fieldUnless, hkey, List.lookup_cons, beq_false_of_ne hkey]

theorem names_fieldUnless_sublist (leftOut : Bool) (name : String) (value : JsonTree) :
    ((fieldUnless leftOut name value).map Prod.fst).Sublist [name] := by
  cases leftOut with
  | true => exact List.nil_sublist _
  | false => exact List.Sublist.refl _

theorem wellFormed_fieldUnless {leftOut : Bool} {name : String} {value : JsonTree}
    (h : value.WellFormed) :
    (fieldUnless leftOut name value).Forall fun field => field.2.WellFormed := by
  cases leftOut with
  | true => trivial
  | false => exact h

/-- Whether or not a field is left out, the names of the fields stay different. -/
theorem nodup_fields (h : HostConfig) :
    ((h.bindsField ++ h.portsField ++ h.linksField).map Prod.fst).Nodup := by
  have hall : ((h.bindsField ++ h.portsField ++ h.linksField).map Prod.fst).Sublist fieldNames := by
    rw [List.map_append, List.map_append]
    exact ((names_fieldUnless_sublist _ _ _).append (names_fieldUnless_sublist _ _ _)).append
      (names_fieldUnless_sublist _ _ _)
  exact List.Nodup.sublist hall (by decide)

/-- A field is left out only if its value is the one that is taken in its place. -/
theorem readOr_leftOut {α : Type} (absent : α) {x : α} {read? : JsonTree → Option α} {leftOut : Bool}
    {value : JsonTree} (hleft : leftOut = true → x = absent) (hread : read? value = some x) :
    readOr absent read? (if leftOut = false then some value else none) = some x := by
  cases leftOut with
  | true => rw [hleft rfl]; rfl
  | false => exact hread

theorem faithful : Faithful toJson ofJson? where
  wellFormed h := by
    refine wellFormed_ofFields ?_
    rw [List.forall_append, List.forall_append]
    exact ⟨⟨wellFormed_fieldUnless (faithful_ofTexts.wellFormed h.binds),
      wellFormed_fieldUnless (faithful_ports.wellFormed h.portBindings)⟩,
      wellFormed_fieldUnless (faithful_ofTexts.wellFormed h.links)⟩
  reads h := by
    have hempty : h.portBindings.isEmpty = true → h.portBindings = .empty :=
      fun hnone => SortedMap.ext_entries (List.isEmpty_iff.mp hnone)
    have hbinds := readOr_leftOut [] List.isEmpty_iff.mp (faithful_ofTexts.reads h.binds)
    have hports := readOr_leftOut .empty hempty (faithful_ports.reads h.portBindings)
    have hlinks := readOr_leftOut [] List.isEmpty_iff.mp (faithful_ofTexts.reads h.links)
    have hfields : h.toJson.fields? fieldNames .upTo =
        some [if h.binds.isEmpty = false then some (.ofTexts h.binds) else none,
          if h.portBindings.isEmpty = false then some (portsToJson h.portBindings) else none,
          if h.links.isEmpty = false then some (.ofTexts h.links) else none] := by
      rw [toJson, fields?_ofFields h.nodup_fields]
      simp [fieldNames, bindsField, portsField, linksField, portsToJson, List.lookup_append,
        lookup_fieldUnless]
    rw [ofJson?, hfields]
    simp only [Option.bind_eq_bind, Option.bind_some, hbinds, hports, hlinks]
    rfl

end HostConfig

/-! ## Texts -/

namespace JsonTree

variable {α : Type} (write : α → JsonTree) (read? : JsonTree → Option α)

/-- The value that a text stands for. -/
def readText? (t : Text) : Option α :=
  (parse? t).bind read?

/-- A text as it is written again once it was read. -/
def rewrite? (t : Text) : Option Text :=
  (readText? read? t).map fun x => (write x).compact

/-- A value can be told from its text, and what was read from any text is written in a way that does
not change any more. -/
structure SurvivesText : Prop where
  reads_back : ∀ x, readText? read? (write x).compact = some x
  settled : ∀ t t', rewrite? write read? t = some t' →
    readText? read? t' = readText? read? t ∧ rewrite? write read? t' = some t'

variable {write read?}

theorem Faithful.survivesText (h : Faithful write read?) : SurvivesText write read? := by
  have hback : ∀ x, readText? read? (write x).compact = some x := by
    intro x
    rw [readText?, parse?_compact (h.wellFormed x), Option.bind_some, h.reads]
  refine ⟨hback, fun t t' ht => ?_⟩
  obtain ⟨x, hx, rfl⟩ := Option.map_eq_some_iff.mp ht
  rw [rewrite?, hback, hx]
  exact ⟨rfl, rfl⟩

end JsonTree

/-- `HostConfig`, `EnginePort` and the four records of which they are built survive as JSON text. -/
theorem survives_text :
    SurvivesText HostConfig.toJson HostConfig.ofJson? ∧
      SurvivesText EnginePort.toJson EnginePort.ofJson? ∧
      SurvivesText Bind.toJson Bind.ofJson? ∧
      SurvivesText PortSpec.toJson PortSpec.ofJson? ∧
      SurvivesText HostBinding.toJson HostBinding.ofJson? ∧
      SurvivesText Link.toJson Link.ofJson? :=
  ⟨HostConfig.faithful.survivesText, EnginePort.faithful.survivesText, Bind.faithful.survivesText,
    PortSpec.faithful.survivesText, HostBinding.faithful.survivesText, Link.faithful.survivesText⟩

end BuildStep
