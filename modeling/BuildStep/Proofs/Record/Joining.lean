import BuildStep.Proofs.HostConfig.ReadBack
import BuildStep.Proofs.Record.Positions

/-!
# Batches that are joined

Two batches with the separator between them are one batch, which says what the first one says and then
what the second one says; the records of the second are counted on from those of the first.  Where
records are lines, a line may end with a carriage return.

## Key results

- `Record.length_splitOn`: how many records there are in a batch
- `Record.readAll_splitOn_append`: two batches with the separator between them
- `WithReturns.lines_eq`: carriage returns at the ends of lines do not count
- `parseAll_joined`: for bind mounts, port bindings and links
-/

namespace BuildStep

namespace Record

/-- A batch has one record more than separators. -/
theorem length_splitOn (sep : Char) (batch : Text) :
    (batch.splitOn sep).length = batch.count sep + 1 := by
  induction batch with
  | nil => rfl
  | cons c batch ih =>
    rw [List.splitOn_cons_eq_if_modifyHead, List.count_cons]
    split
    · rw [List.length_cons, ih]
    · rw [List.length_modifyHead, ih]

variable {α : Type} {grammar : Grammar} {reading : Text → Except Fault α}

/-- Two batches with the separator between them are read one after the other. -/
theorem readAll_splitOn_append (sep : Char) (a b : Text) :
    readAll grammar reading (numbered ((a ++ sep :: b).splitOn sep)) =
      join (a.count sep + 1) (· ++ ·) (readAll grammar reading (numbered (a.splitOn sep)))
        (readAll grammar reading (numbered (b.splitOn sep))) := by
  rw [List.splitOn_append_cons_self, readAll_append, length_splitOn]

/-- What is made of the two parts can be made of each of them first. -/
theorem map_join {β γ : Type} {n : Nat} {combine : β → β → β} {combine' : γ → γ → γ} {f : β → γ}
    (h : ∀ x y, f (combine x y) = combine' (f x) (f y)) (first second : Except GrammarError β) :
    (join n combine first second).map f = join n combine' (first.map f) (second.map f) := by
  cases first with
  | error e => rfl
  | ok x =>
    cases second with
    | error e => rfl
    | ok y => exact congrArg Except.ok (h x y)

end Record

/-- Bindings that are added later are laid over those that were there. -/
theorem PortBindings.ofSpecs_append (specs specs' : List PortSpec) :
    ofSpecs (specs ++ specs') = (ofSpecs specs).overlay (ofSpecs specs') := by
  rw [ofSpecs_eq, ofSpecs_eq, ofSpecs_eq, List.map_append, SortedMap.ofList_append]

/-! ## Carriage returns -/

/-- The second text is the first one with carriage returns before some of its line breaks. -/
inductive WithReturns : Text → Text → Prop
  | nil : WithReturns [] []
  | keep (c : Char) {t t' : Text} : WithReturns t t' → WithReturns (c :: t) (c :: t')
  | insert {t t' : Text} : WithReturns t t' → WithReturns ('\n' :: t) ('\r' :: '\n' :: t')

namespace WithReturns

variable {t t' : Text}

/-- The lines are the same, but for carriage returns at their ends. -/
theorem splitOn (h : WithReturns t t') :
    List.Forall₂ (fun line line' => line' = line ∨ line' = line ++ ['\r'])
      (t.splitOn '\n') (t'.splitOn '\n') := by
  induction h with
  | nil => exact .cons (.inl rfl) .nil
  | @keep c t t' _ ih =>
    rw [List.splitOn_cons_eq_if_modifyHead, List.splitOn_cons_eq_if_modifyHead]
    split
    · exact .cons (.inl rfl) ih
    · -- the character goes to the front of the first line of both
      generalize t.splitOn '\n' = lines, t'.splitOn '\n' = lines' at ih
      cases ih with
      | nil => exact .nil
      | cons hline hlines =>
        refine .cons ?_ hlines
        rcases hline with rfl | rfl
        · exact .inl rfl
        · exact .inr rfl
  | @insert t t' _ ih =>
    have hfirst : ('\n' :: t).splitOn '\n' = [] :: t.splitOn '\n' :=
      List.splitOn_append_cons_self [] t
    have hreturn : ('\r' :: '\n' :: t').splitOn '\n' = ['\r'] :: t'.splitOn '\n' :=
      List.splitOn_append_cons_self ['\r'] t'
    rw [hfirst, hreturn]
    exact .cons (.inr rfl) ih

/-- So the records are the same. -/
theorem lines_eq (h : WithReturns t t') : Record.lines t' = Record.lines t := by
  have htrim : (t'.splitOn '\n').map Text.trim = (t.splitOn '\n').map Text.trim := by
    have hlines := h.splitOn
    generalize t.splitOn '\n' = lines, t'.splitOn '\n' = lines' at hlines
    induction hlines with
    | nil => rfl
    | @cons line line' _ _ hline _ ih =>
      rw [List.map_cons, List.map_cons, ih]
      rcases hline with rfl | rfl
      · rfl
      · have hreturn : ∀ c ∈ ['\r'], Text.isBlank c = true :=
          List.forall_mem_singleton.mpr (by decide)
        rw [Text.trim_append_blanks _ hreturn]
  rw [Record.lines, Record.numbered, htrim]
  rfl

end WithReturns

/-! ## All batches -/

/-- `parseAll` of two batches with the separator between them is the `Record.join` of what it gives
for each, and `parseBindings` lays the second map over the first.  Returns before line breaks make
no difference. -/
theorem parseAll_joined :
    (∀ a b, Bind.parseAll (a ++ '\n' :: b) =
      Record.join (a.count '\n' + 1) (· ++ ·) (Bind.parseAll a) (Bind.parseAll b)) ∧
    (∀ a b, PortSpec.parseAll (a ++ '\n' :: b) =
      Record.join (a.count '\n' + 1) (· ++ ·) (PortSpec.parseAll a) (PortSpec.parseAll b)) ∧
    (∀ a b, Link.parseAll (a ++ ',' :: b) =
      Record.join (a.count ',' + 1) (· ++ ·) (Link.parseAll a) (Link.parseAll b)) ∧
    (∀ a b, PortSpec.parseBindings (a ++ '\n' :: b) =
      Record.join (a.count '\n' + 1) SortedMap.overlay (PortSpec.parseBindings a)
        (PortSpec.parseBindings b)) ∧
    (∀ (m m' : PortBindings) (port : ExposedPort),
      (m.overlay m').get? port = (m'.get? port).or (m.get? port)) ∧
    (∀ t t', WithReturns t t' → Bind.parseAll t' = Bind.parseAll t ∧
      PortSpec.parseAll t' = PortSpec.parseAll t ∧
      PortSpec.parseBindings t' = PortSpec.parseBindings t) := by
  have hports : ∀ a b, PortSpec.parseAll (a ++ '\n' :: b) =
      Record.join (a.count '\n' + 1) (· ++ ·) (PortSpec.parseAll a) (PortSpec.parseAll b) :=
    Record.readAll_splitOn_append '\n'
  refine ⟨Record.readAll_splitOn_append '\n', hports, Record.readAll_splitOn_append ',', ?_,
    SortedMap.get?_overlay, ?_⟩
  · intro a b
    rw [PortSpec.parseBindings, hports, Record.map_join PortBindings.ofSpecs_append]
    rfl
  · intro t t' h
    have hlines := h.lines_eq
    simp only [Bind.parseAll, PortSpec.parseBindings, PortSpec.parseAll, hlines, and_self]

/-- A blank record of the first batch counts in an error of the second. -/
example : Bind.parseAll ("/a:/b\n".toList ++ '\n' :: "\r\n/c".toList) =
    .error ⟨.bind, 4, "/c".toList, .fieldCount .colon 1⟩ := by
  rfl

end BuildStep
