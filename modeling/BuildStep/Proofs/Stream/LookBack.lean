import BuildStep.Proofs.Stream.HeldBack

/-!
# How far a decoder looks back

To find an unfinished character a decoder looks at the last three bytes that it has, and at no others.
It stops there, but it would find nothing else if it went on to the first byte: behind a byte that is
further back there are more continuation bytes than any character has.

What waits on a stream can therefore be told without the decoder.  It is the unfinished character at
the end of all that the stream has brought since it was last given up, and no other stream has a say
in it.

## Key results

- `completeLength_append`, `completeLength_of_forall`: where the unfinished character starts
- `held_after`: what waits after any calls
- `window_suffices`: the window, and all decoders that can be reached
-/

namespace BuildStep.TextDecoder

variable {bytes part : List UInt8}

/-! ## Where the unfinished character starts -/

theorem completeLength_le (bytes : List UInt8) : completeLength bytes ≤ bytes.length :=
  Nat.sub_le _ _

theorem completeLength_append (pre : List UInt8) (h : Unfinished part) :
    completeLength (pre ++ part) = pre.length := by
  have hwaiting := congrArg List.length (h.waiting_eq pre)
  have hpos := List.length_pos_of_ne_nil h.ne_nil
  simp only [waiting, List.length_drop, List.length_append] at hwaiting
  omega

theorem completeLength_of_forall (h : ∀ pre part, bytes = pre ++ part → ¬Unfinished part) :
    completeLength bytes = bytes.length := by
  have hnone : waiting bytes = [] := by
    apply (waiting_cases bytes).resolve_right
    exact h _ _ (take_append_waiting bytes).symm
  have hlength := congrArg List.length hnone
  have hle := completeLength_le bytes
  simp only [waiting, List.length_drop, List.length_nil] at hlength
  omega

/-- An unfinished character is shorter than the longest characters are. -/
theorem Unfinished.length_le (h : Unfinished part) : part.length ≤ 3 := by
  obtain ⟨b, conts, width, rfl, hwidth, -, hlt⟩ := h
  have hle := (of_width? hwidth).2
  rw [List.length_cons]
  omega

theorem length_waiting_le (bytes : List UInt8) : (waiting bytes).length ≤ 3 := by
  obtain hnone | hpart := waiting_cases bytes
  · rw [hnone]
    exact Nat.zero_le 3
  · exact hpart.length_le

/-! ## Calls on a decoder -/

/-- What a decoder can be asked to do. -/
inductive Call
  /-- To take a payload of a stream. -/
  | decode (s : StreamType) (payload : List UInt8)
  /-- To give up what waits on a stream. -/
  | finish (s : StreamType)
deriving DecidableEq, Repr

namespace Call

/-- The stream that the call is about. -/
def stream : Call → StreamType
  | decode s _ => s
  | finish s => s

/-- Makes the call: the text that it gives, and the decoder after it. -/
def perform (d : TextDecoder) : Call → Text × TextDecoder
  | decode s payload => d.decode s payload
  | finish s => d.finish s

/-- What a stream has brought since it was last given up, with the call after all that. -/
def gather (s : StreamType) (sofar : List UInt8) : Call → List UInt8
  | decode s' payload => if s' = s then sofar ++ payload else sofar
  | finish s' => if s' = s then [] else sofar

end Call

/-- The decoder after some calls. -/
def after (d : TextDecoder) (calls : List Call) : TextDecoder :=
  calls.foldl (fun d c => (c.perform d).2) d

/-- What a stream has brought, in some calls, since it was last given up. -/
def received (s : StreamType) (calls : List Call) : List UInt8 :=
  calls.foldl (Call.gather s) []

variable {d : TextDecoder} {s : StreamType}

/-- A call on one stream leaves alone what waits on the others. -/
theorem held_perform_of_ne {c : Call} (h : c.stream ≠ s) : (c.perform d).2.held s = d.held s := by
  cases c with
  | decode s' payload => exact held_decode_of_ne d (Ne.symm h) payload
  | finish s' => exact held_hold_of_ne d (Ne.symm h) []

theorem held_perform_self (h : d.held s = waiting bytes) {c : Call} (hc : c.stream = s) :
    (c.perform d).2.held s = waiting (c.gather s bytes) := by
  subst hc
  cases c with
  | decode s payload =>
    -- the decoder sees only what waits, but that makes no difference to what will wait
    show (d.decode s payload).2.held s = waiting (if s = s then bytes ++ payload else bytes)
    rw [if_pos rfl, held_decode_self, waiting_append bytes]
    exact congrArg (fun held => waiting (held ++ payload)) h
  | finish s =>
    show (d.finish s).2.held s = waiting (if s = s then [] else bytes)
    rw [if_pos rfl]
    exact held_hold_self d s []

/-- One call: what waits is the unfinished end of what the stream has brought, before and after. -/
theorem held_perform (h : d.held s = waiting bytes) (c : Call) :
    (c.perform d).2.held s = waiting (c.gather s bytes) := by
  by_cases hc : c.stream = s
  · exact held_perform_self h hc
  · have hgather : c.gather s bytes = bytes := by
      cases c with
      | decode s' payload => exact if_neg hc
      | finish s' => exact if_neg hc
    rw [held_perform_of_ne hc, hgather, h]

theorem held_foldl (h : d.held s = waiting bytes) (calls : List Call) :
    (d.after calls).held s = waiting (calls.foldl (Call.gather s) bytes) := by
  -- induction on the calls, from any decoder that holds back just what it has to
  induction calls generalizing d bytes with
  | nil => exact h
  | cons c calls ih => exact ih (held_perform h c)

/-- What waits on a stream after any calls. -/
theorem held_after (calls : List Call) (s : StreamType) :
    (new.after calls).held s = waiting (received s calls) := by
  apply held_foldl
  rw [held_new]
  rfl

/-- `heldBack` finds in the last three bytes what it would find in all of them.  So what a
`TextDecoder` holds on a stream is nothing or the `Unfinished` end, of three bytes at most, of what
was received on it, and calls on other streams do not change it. -/
theorem window_suffices (bytes : List UInt8) (calls : List Call) (s : StreamType) :
    let d := new.after calls
    heldBack bytes = heldBackFrom 0 bytes.reverse ∧
      (∀ pre part, bytes = pre ++ part → Unfinished part → completeLength bytes = pre.length) ∧
      ((∀ pre part, bytes = pre ++ part → ¬Unfinished part) →
        completeLength bytes = bytes.length) ∧
      d.held s = waiting (received s calls) ∧
      (d.held s = [] ∨ Unfinished (d.held s)) ∧ (d.held s).length ≤ 3 ∧
      ∀ c : Call, c.stream ≠ s → (c.perform d).2.held s = d.held s := by
  intro d
  have hheld : d.held s = waiting (received s calls) := held_after calls s
  refine ⟨heldBack_eq_heldBackFrom bytes, ?_, completeLength_of_forall, hheld, ?_, ?_, ?_⟩
  · rintro pre part rfl hpart
    exact completeLength_append pre hpart
  · rw [hheld]
    exact waiting_cases _
  · rw [hheld]
    exact length_waiting_le _
  · intro c hc
    exact held_perform_of_ne hc

end BuildStep.TextDecoder
