import BuildStep.Stream.Capture

/-!
# What stands in the bytes of a stream

Here the frames of a stream are read off its bytes by position, with no buffer, no reads and no
order in time.  This is what a reader of frames is measured by: its answers must be the answers
that the bytes and the end of the transport call for.

## Key results

- `Front.of_eq_wire`: what a reader takes for the front of its buffer is what stands there
- `frame?_append`, `badType?_append`: bytes that come later do not change it
- `answers_of_frame?`, `answers_of_none`: the sequence of answers, one frame at a time
- `Capture.decode_eq_wire`: a capture is decoded into the same frames
-/

namespace BuildStep

/-- How a transport goes on once all of its bytes were read. -/
inductive Outcome
  /-- Its end is reached. -/
  | closed
  /-- A read fails, and not for a moment only. -/
  | failed (e : IoError)
  /-- Nothing ever comes. -/
  | silent
deriving DecidableEq, Repr

namespace Wire

/-! ## Reading by position -/

/-- The number that bytes write, most significant byte first. -/
def number (bytes : List UInt8) : Nat :=
  bytes.foldl (fun n b => n * 256 + b.toNat) 0

/-- The length of the payload that a header at the front announces: its bytes 4 to 7. -/
def announced (bytes : List UInt8) : Nat :=
  number ((bytes.drop 4).take 4)

/-- The frame at the front, and the bytes after it.  Byte 0 tells the stream, bytes 4 to 7 tell the
length of the payload, and the payload follows byte 7. -/
def frame? (bytes : List UInt8) : Option (Frame × List UInt8) := do
  let stream ← StreamType.all[(← bytes[0]?).toNat]?
  if 8 + announced bytes ≤ bytes.length then
    some (⟨stream, (bytes.drop 8).take (announced bytes)⟩, bytes.drop (8 + announced bytes))
  else none

/-- The first byte of a full header at the front, if it tells no stream. -/
def badType? (bytes : List UInt8) : Option UInt8 :=
  if 8 ≤ bytes.length then bytes[0]?.filter (2 < ·) else none

theorem length_of_frame? {bytes rest : List UInt8} {f : Frame}
    (h : frame? bytes = some (f, rest)) : 8 + announced bytes + rest.length = bytes.length := by
  simp only [frame?, Option.bind_eq_bind, Option.bind_eq_some_iff] at h
  obtain ⟨t, -, s, -, h⟩ := h
  split at h
  · cases h
    rw [List.length_drop]
    omega
  · cases h

/-- The frames from the front on, and the bytes after the last of them. -/
def split (bytes : List UInt8) : List Frame × List UInt8 :=
  match _hframe : frame? bytes with
  | some (f, rest) => (f :: (split rest).1, (split rest).2)
  | none => ([], bytes)
termination_by bytes.length
decreasing_by
  all_goals
    have := length_of_frame? _hframe
    omega

/-- The frames of a stream. -/
def frames (bytes : List UInt8) : List Frame :=
  (split bytes).1

/-- The bytes of a stream that belong to no frame. -/
def leftover (bytes : List UInt8) : List UInt8 :=
  (split bytes).2

/-- What there is to say in place of another frame, with only some bytes left over.  A transport
that stays silent never lets it be said, unless a header tells no stream. -/
def verdict (o : Outcome) (rest : List UInt8) : Answer :=
  match badType? rest with
  | some b => .error (.unknownStream b)
  | none =>
    match o with
    | .silent => .notReady
    | .failed e => .error (.transport e)
    | .closed =>
      if rest.length = 0 then .ended
      else if rest.length < 8 then .error (.truncatedHeader rest.length)
      else .error (.truncatedPayload (UInt32.ofNat (announced rest)) (rest.length - 8))

/-- All that a reader has to say about a stream, in order: its frames, then the verdict on the rest,
and from then on that there is no more. -/
def answers (o : Outcome) (bytes : List UInt8) (i : Nat) : Answer :=
  ((frames bytes).map Answer.frame ++ [verdict o (leftover bytes)])[i]?.getD .ended

theorem verdict_ne_frame (o : Outcome) (rest : List UInt8) (f : Frame) :
    verdict o rest ≠ .frame f := by
  cases hbad : badType? rest with
  | some b => simp [verdict, hbad]
  | none =>
    cases o with
    | silent => simp [verdict, hbad]
    | failed e => simp [verdict, hbad]
    | closed =>
      simp only [verdict, hbad]
      split
      · simp
      · split <;> simp

/-! ## One frame at a time -/

theorem split_of_frame? {bytes rest : List UInt8} {f : Frame}
    (h : frame? bytes = some (f, rest)) :
    split bytes = (f :: (split rest).1, (split rest).2) := by
  rw [split]
  split
  · rename_i h'
    rw [h] at h'
    cases h'
    rfl
  · rename_i h'
    rw [h] at h'
    cases h'

theorem split_of_none {bytes : List UInt8} (h : frame? bytes = none) :
    split bytes = ([], bytes) := by
  rw [split]
  split
  · rename_i h'
    rw [h] at h'
    cases h'
  · rfl

theorem frames_of_frame? {bytes rest : List UInt8} {f : Frame}
    (h : frame? bytes = some (f, rest)) : frames bytes = f :: frames rest := by
  rw [frames, split_of_frame? h, frames]

theorem answers_of_frame? {bytes rest : List UInt8} {f : Frame} (o : Outcome)
    (h : frame? bytes = some (f, rest)) :
    answers o bytes 0 = .frame f ∧ ∀ i, answers o bytes (i + 1) = answers o rest i := by
  simp [answers, frames, leftover, split_of_frame? h]

theorem answers_of_none {bytes : List UInt8} (o : Outcome) (h : frame? bytes = none) :
    answers o bytes 0 = verdict o bytes ∧ ∀ i, answers o bytes (i + 1) = .ended := by
  simp [answers, frames, leftover, split_of_none h]

end Wire

/-! ## The reader's own view of the front -/

/-- A header needs eight bytes. -/
theorem Header.read_of_short {bytes : List UInt8} (h : bytes.length < 8) :
    Header.read bytes = none := by
  unfold Header.read
  split
  · simp only [List.length_cons] at h
    omega
  · rfl

/-- At least eight bytes are a type, three reserved bytes, four bytes of a length and more. -/
theorem Wire.exists_header {bytes : List UInt8} (h : 8 ≤ bytes.length) :
    ∃ t r₁ r₂ r₃ a b c d rest, bytes = t :: r₁ :: r₂ :: r₃ :: a :: b :: c :: d :: rest := by
  match bytes, h with
  | t :: r₁ :: r₂ :: r₃ :: a :: b :: c :: d :: rest, _ =>
    exact ⟨t, r₁, r₂, r₃, a, b, c, d, rest, rfl⟩

theorem Header.toNat_lengthOf (a b c d : UInt8) :
    (Header.lengthOf a b c d).toNat = Wire.number [a, b, c, d] := by
  have ha := a.toNat_lt
  have hb := b.toNat_lt
  have hc := c.toNat_lt
  have hd := d.toNat_lt
  simp only [Header.lengthOf, UInt32.toNat_ofNat', Wire.number, List.foldl_cons, List.foldl_nil]
  omega

/-- The identifiers of the streams are their places among all of them. -/
theorem StreamType.all_getElem? (t : UInt8) : StreamType.all[t.toNat]? = StreamType.ofId? t := by
  unfold StreamType.ofId?
  split
  · subst t; rfl
  split
  · subst t; rfl
  split
  · subst t; rfl
  · -- any other byte is beyond the last place
    rename_i h0 h1 h2
    have h0' : t.toNat ≠ 0 := fun h => h0 (UInt8.toNat.inj h)
    have h1' : t.toNat ≠ 1 := fun h => h1 (UInt8.toNat.inj h)
    have h2' : t.toNat ≠ 2 := fun h => h2 (UInt8.toNat.inj h)
    simp only [StreamType.all, List.getElem?_eq_none_iff, List.length_cons, List.length_nil]
    omega

/-- A byte tells no stream if it is greater than the last identifier. -/
theorem StreamType.ofId?_eq_none_iff (t : UInt8) : StreamType.ofId? t = none ↔ 2 < t := by
  rw [← StreamType.all_getElem?, List.getElem?_eq_none_iff, UInt8.lt_iff_toNat_lt]
  rfl

namespace Wire

variable (t r₁ r₂ r₃ a b c d : UInt8) (rest : List UInt8)

theorem announced_header :
    announced (t :: r₁ :: r₂ :: r₃ :: a :: b :: c :: d :: rest) = number [a, b, c, d] := by
  simp [announced]

theorem frame?_header :
    frame? (t :: r₁ :: r₂ :: r₃ :: a :: b :: c :: d :: rest) =
      (StreamType.ofId? t).bind fun s =>
        if number [a, b, c, d] ≤ rest.length then
          some (⟨s, rest.take (number [a, b, c, d])⟩, rest.drop (number [a, b, c, d]))
        else none := by
  -- behind the header, positions count from the payload on
  have hdrop (n : Nat) : (t :: r₁ :: r₂ :: r₃ :: a :: b :: c :: d :: rest).drop (8 + n) =
      rest.drop n := by
    rw [← List.drop_drop]
    rfl
  have hlen : (8 + number [a, b, c, d] ≤ (t :: r₁ :: r₂ :: r₃ :: a :: b :: c :: d :: rest).length) ↔
      number [a, b, c, d] ≤ rest.length := by
    simp only [List.length_cons]
    omega
  simp only [frame?, announced_header, hdrop, hlen, ← StreamType.all_getElem?]
  rfl

theorem badType?_header :
    badType? (t :: r₁ :: r₂ :: r₃ :: a :: b :: c :: d :: rest) =
      if StreamType.ofId? t = none then some t else none := by
  simp [badType?, StreamType.ofId?_eq_none_iff, Option.filter]

theorem frame?_of_short {bytes : List UInt8} (h : bytes.length < 8) : frame? bytes = none := by
  cases hframe : frame? bytes with
  | none => rfl
  | some p =>
    have := length_of_frame? hframe
    omega

theorem badType?_of_short {bytes : List UInt8} (h : bytes.length < 8) : badType? bytes = none := by
  rw [badType?, if_neg (by omega)]

/-- A whole frame stays what it is when more bytes come. -/
theorem frame?_append {bytes left : List UInt8} {f : Frame} (more : List UInt8)
    (h : frame? bytes = some (f, left)) : frame? (bytes ++ more) = some (f, left ++ more) := by
  have hlen : 8 ≤ bytes.length := by
    have := length_of_frame? h
    omega
  obtain ⟨t, r₁, r₂, r₃, a, b, c, d, rest, rfl⟩ := exists_header hlen
  simp only [List.cons_append, frame?_header, Option.bind_eq_some_iff] at h ⊢
  obtain ⟨s, hs, h⟩ := h
  refine ⟨s, hs, ?_⟩
  -- the payload that fits already still fits, and is cut out of the same place
  split at h
  · rename_i hfit
    cases h
    have hfit' : number [a, b, c, d] ≤ (rest ++ more).length := by
      rw [List.length_append]
      omega
    rw [if_pos hfit', List.take_append_of_le_length hfit, List.drop_append_of_le_length hfit]
  · cases h

/-- A header that tells no stream is still there when more bytes come. -/
theorem badType?_append {bytes : List UInt8} {x : UInt8} (more : List UInt8)
    (h : badType? bytes = some x) : badType? (bytes ++ more) = some x := by
  unfold badType? at h ⊢
  split at h
  · rename_i hlen
    rw [if_pos (by rw [List.length_append]; omega), List.getElem?_append_left (by omega)]
    exact h
  · cases h

/-- A header that tells no stream belongs to no frame. -/
theorem frame?_of_badType? {bytes : List UInt8} {x : UInt8} (h : badType? bytes = some x) :
    frame? bytes = none := by
  by_cases hlen : 8 ≤ bytes.length
  · obtain ⟨t, r₁, r₂, r₃, a, b, c, d, rest, rfl⟩ := exists_header hlen
    rw [badType?_header] at h
    split at h
    · rename_i hs
      rw [frame?_header, hs, Option.bind_none]
    · cases h
  · exact frame?_of_short (by omega)

/-- What a reader says at the end of its transport is the verdict on the bytes left over. -/
theorem endOfStream_eq_verdict (bytes : List UInt8) :
    Demux.endOfStream bytes = verdict .closed bytes := by
  by_cases hlen : 8 ≤ bytes.length
  · -- there is a header: it is at fault, or its payload is cut short
    obtain ⟨t, r₁, r₂, r₃, a, b, c, d, rest, rfl⟩ := exists_header hlen
    rw [verdict, badType?_header, announced_header]
    cases hs : StreamType.ofId? t with
    | none => simp [Demux.endOfStream, Header.read, hs]
    | some s => simp [Demux.endOfStream, Header.read, hs, Header.lengthOf, number]
  · -- the header itself is cut short, or there is nothing at all
    have hshort : bytes.length < 8 := by omega
    rw [verdict, badType?_of_short hshort, Demux.endOfStream, Header.read_of_short hshort]
    cases bytes with
    | nil => rfl
    | cons b rest =>
      simp only [List.isEmpty_cons, List.length_cons] at hshort ⊢
      simp [hshort]

end Wire

namespace Front

/-- What a reader takes for the front of some bytes is what stands there. -/
theorem of_eq_wire (bytes : List UInt8) :
    of bytes =
      match Wire.frame? bytes, Wire.badType? bytes with
      | some (f, rest), _ => .whole f rest
      | none, some b => .unknown b
      | none, none => .incomplete := by
  by_cases hlen : 8 ≤ bytes.length
  · obtain ⟨t, r₁, r₂, r₃, a, b, c, d, rest, rfl⟩ := Wire.exists_header hlen
    rw [Wire.frame?_header, Wire.badType?_header]
    cases hs : StreamType.ofId? t with
    | none => simp [of, Header.read, hs]
    | some s =>
      -- both sides compare the announced length with what follows the header
      by_cases hfit : Wire.number [a, b, c, d] ≤ rest.length
      · simp [of, Header.read, hs, Header.toNat_lengthOf, hfit]
      · simp [of, Header.read, hs, Header.toNat_lengthOf, hfit]
  · have hshort : bytes.length < 8 := by omega
    rw [Wire.frame?_of_short hshort, Wire.badType?_of_short hshort, of,
      Header.read_of_short hshort]

theorem of_eq_whole_iff {bytes rest : List UInt8} {f : Frame} :
    of bytes = .whole f rest ↔ Wire.frame? bytes = some (f, rest) := by
  rw [of_eq_wire]
  split <;> simp_all

theorem of_eq_unknown_iff {bytes : List UInt8} {x : UInt8} :
    of bytes = .unknown x ↔ Wire.badType? bytes = some x := by
  rw [of_eq_wire]
  split
  · -- a frame and a header that tells no stream exclude each other
    rename_i hframe
    simp only [reduceCtorEq, false_iff]
    intro hbad
    rw [Wire.frame?_of_badType? hbad] at hframe
    cases hframe
  · simp_all
  · simp_all

theorem of_eq_incomplete_iff {bytes : List UInt8} :
    of bytes = .incomplete ↔ Wire.frame? bytes = none ∧ Wire.badType? bytes = none := by
  rw [of_eq_wire]
  split <;> simp_all

end Front

/-- A capture is decoded into the frames that stand in it, and the verdict on the rest. -/
theorem Capture.decode_eq_wire (bytes : List UInt8) :
    decode bytes = (Wire.frames bytes, Wire.verdict .closed (Wire.leftover bytes)) := by
  fun_induction decode bytes with
  | case1 bytes f rest hfront frames last hrest ih =>
    have hframe := Front.of_eq_whole_iff.mp hfront
    rw [ih] at hrest
    cases hrest
    simp [Wire.frames, Wire.leftover, Wire.split_of_frame? hframe]
  | case2 bytes b hfront =>
    have hbad := Front.of_eq_unknown_iff.mp hfront
    simp [Wire.frames, Wire.leftover, Wire.split_of_none (Wire.frame?_of_badType? hbad),
      Wire.verdict, hbad]
  | case3 bytes hfront =>
    have hframe := (Front.of_eq_incomplete_iff.mp hfront).1
    simp [Wire.frames, Wire.leftover, Wire.split_of_none hframe, Wire.endOfStream_eq_verdict]

end BuildStep
