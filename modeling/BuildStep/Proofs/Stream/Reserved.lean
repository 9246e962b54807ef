import BuildStep.Proofs.Stream.Captures
import BuildStep.Proofs.Stream.Truncation

/-!
# Frames that are written again

A header has three bytes that no reader looks at and that are zero in whatever this library writes.
If the frames of a stream are written again, these bytes are all that can have changed: every other
byte of a stream of whole frames is told by its frames, byte for byte and at the same place.

## Key results

- `Header.encode_lengthOf`: four bytes are what is written of the number that they write
- `Wire.frame?_eq_some_iff`: what stands at the front, but for the reserved bytes
- `Wire.encode_frames_append`: the frames of a stream, written again
- `Wire.split_of_agrees`: bytes that differ from frames only in reserved bytes
- `Script.encode_of_endsCleanly`: a stream that was read to a clean end
-/

namespace BuildStep

/-- The four bytes of a length are what is written of it. -/
theorem Header.encode_lengthOf (s : StreamType) (a b c d : UInt8) :
    encode ⟨s, lengthOf a b c d⟩ = [s.id, 0, 0, 0, a, b, c, d] := by
  have ha := a.toNat_lt
  have hb := b.toNat_lt
  have hc := c.toNat_lt
  have hd := d.toNat_lt
  have hn : (lengthOf a b c d).toNat =
      ((a.toNat * 256 + b.toNat) * 256 + c.toNat) * 256 + d.toNat := by
    rw [lengthOf, UInt32.toNat_ofNat_of_lt']
    exact Nat.lt_of_le_of_lt (m := 256 * 256 * 256 * 256 - 1) (by omega) (by decide)
  have hbyte {n : Nat} {x : UInt8} (h : n = x.toNat) : UInt8.ofNat n = x := by
    rw [h, UInt8.ofNat_toNat]
  simp only [encode, hn]
  rw [hbyte (x := a) (by omega), hbyte (x := b) (by omega), hbyte (x := c) (by omega),
    hbyte (x := d) (by omega)]

namespace Wire

/-! ## Reserved bytes -/

/-- Where frames begin that are written one after the other. -/
def places : List Frame → List Nat
  | [] => []
  | f :: fs => 0 :: (places fs).map (f.wireSize + ·)

/-- The place is that of one of the three reserved bytes in a header of these frames. -/
def ReservedIn (fs : List Frame) (i : Nat) : Prop :=
  ∃ start ∈ places fs, start < i ∧ i ≤ start + 3

instance (fs : List Frame) (i : Nat) : Decidable (ReservedIn fs i) :=
  inferInstanceAs (Decidable (∃ start ∈ places fs, start < i ∧ i ≤ start + 3))

/-- The byte at this place of a stream is reserved. -/
def IsReserved (bytes : List UInt8) (i : Nat) : Prop :=
  ReservedIn (frames bytes) i

instance (bytes : List UInt8) (i : Nat) : Decidable (IsReserved bytes i) :=
  inferInstanceAs (Decidable (ReservedIn (frames bytes) i))

/-- The stream with zeros for its reserved bytes. -/
def cleared (bytes : List UInt8) : List UInt8 :=
  bytes.mapIdx fun i b => if IsReserved bytes i then 0 else b

/-- Two streams are as long as each other, and differ only in bytes that are reserved in the first. -/
def SameButReserved (bytes bytes' : List UInt8) : Prop :=
  bytes.length = bytes'.length ∧ ∀ i, bytes[i]? ≠ bytes'[i]? → IsReserved bytes i

/-- The header at this place of a stream is that of the frame, and says how long its payload is. -/
def HeaderAt (bytes : List UInt8) (start : Nat) (f : Frame) : Prop :=
  ∃ rest, Header.read (bytes.drop start) = some (.ok (f.header, rest)) ∧
    f.header.length.toNat = f.payload.length

variable {f : Frame} {fs : List Frame} {bytes rest : List UInt8}

theorem not_reservedIn_nil (i : Nat) : ¬ReservedIn [] i := by
  rintro ⟨start, hstart, -⟩
  cases hstart

/-- In the first frame the bytes behind the first one are reserved, up to the fourth. -/
theorem reservedIn_of_lt {i : Nat} (hi : i < f.wireSize) :
    ReservedIn (f :: fs) i ↔ 0 < i ∧ i ≤ 3 := by
  constructor
  · rintro ⟨start, hstart, hlt, hle⟩
    rcases List.mem_cons.mp hstart with rfl | hstart
    · exact ⟨hlt, by omega⟩
    · -- all other headers are behind the frame
      obtain ⟨later, -, rfl⟩ := List.mem_map.mp hstart
      omega
  · rintro ⟨hlt, hle⟩
    exact ⟨0, List.mem_cons_self, hlt, by omega⟩

/-- Behind the first frame the places are counted from its end. -/
theorem reservedIn_add (i : Nat) :
    ReservedIn (f :: fs) (f.wireSize + i) ↔ ReservedIn fs i := by
  have hsize : 8 ≤ f.wireSize := Nat.le_add_right _ _
  constructor
  · rintro ⟨start, hstart, hlt, hle⟩
    rcases List.mem_cons.mp hstart with rfl | hstart
    · omega
    · obtain ⟨later, hlater, rfl⟩ := List.mem_map.mp hstart
      exact ⟨later, hlater, by omega, by omega⟩
  · rintro ⟨start, hstart, hlt, hle⟩
    exact ⟨f.wireSize + start, List.mem_cons_of_mem _ (List.mem_map_of_mem hstart), by omega,
      by omega⟩

/-! ## One frame -/

theorem encode_eq (f : Frame) : f.encode = f.stream.id :: 0 :: 0 :: 0 :: f.encode.drop 4 := rfl

/-- A frame stands at the front if its bytes do, whatever is in the reserved ones. -/
theorem frame?_eq_some_iff :
    frame? bytes = some (f, rest) ↔ f.payload.length < UInt32.size ∧
      ∃ r₁ r₂ r₃, bytes = f.stream.id :: r₁ :: r₂ :: r₃ :: (f.encode.drop 4 ++ rest) := by
  constructor
  · intro h
    have hlen : 8 ≤ bytes.length := by
      have := length_of_frame? h
      omega
    obtain ⟨t, r₁, r₂, r₃, a, b, c, d, tail, rfl⟩ := exists_header hlen
    rw [frame?_header, Option.bind_eq_some_iff] at h
    obtain ⟨s, hs, h⟩ := h
    split at h
    · rename_i hfit
      cases h
      -- the number in the header is the length of the payload, and so is written as the same bytes
      have hlength : (tail.take (number [a, b, c, d])).length = (Header.lengthOf a b c d).toNat := by
        rw [List.length_take, Nat.min_eq_left hfit, Header.toNat_lengthOf]
      have hheader : Frame.header ⟨s, tail.take (number [a, b, c, d])⟩ =
          ⟨s, Header.lengthOf a b c d⟩ := by
        rw [Frame.header, hlength, UInt32.ofNat_toNat]
      refine ⟨?_, r₁, r₂, r₃, ?_⟩
      · rw [hlength]
        exact UInt32.toNat_lt_size _
      · rw [Frame.encode, hheader, Header.encode_lengthOf]
        simp [StreamType.id_of_ofId? hs]
    · cases h
  · rintro ⟨hfit, r₁, r₂, r₃, rfl⟩
    -- the reserved bytes are not looked at, so they may as well be zero
    have hzero := frame?_encode hfit rest
    obtain ⟨a, b, c, d, hheader⟩ : ∃ a b c d, f.encode.drop 4 = a :: b :: c :: d :: f.payload :=
      ⟨_, _, _, _, rfl⟩
    rw [encode_eq, hheader] at hzero
    simp only [List.cons_append, frame?_header] at hzero
    rw [hheader]
    simp only [List.cons_append, frame?_header]
    exact hzero

theorem drop_of_frame? (h : frame? bytes = some (f, rest)) : bytes.drop f.wireSize = rest := by
  obtain ⟨-, r₁, r₂, r₃, rfl⟩ := frame?_eq_some_iff.mp h
  have hlen : f.wireSize = (f.encode.drop 4).length + 4 := by
    rw [List.length_drop, Frame.length_encode, Frame.wireSize, Header.size]
    omega
  rw [hlen]
  simp

/-- The header at the front is that of the frame. -/
theorem headerAt_of_frame? (h : frame? bytes = some (f, rest)) : HeaderAt bytes 0 f := by
  obtain ⟨hfit, r₁, r₂, r₃, rfl⟩ := frame?_eq_some_iff.mp h
  have hzero := Header.read_encode f.header (f.payload ++ rest)
  refine ⟨f.payload ++ rest, ?_, UInt32.toNat_ofNat_of_lt' hfit⟩
  obtain ⟨a, b, c, d, hheader⟩ : ∃ a b c d, f.header.encode = f.stream.id :: 0 :: 0 :: 0 ::
      [a, b, c, d] ∧ f.encode.drop 4 = a :: b :: c :: d :: f.payload := ⟨_, _, _, _, rfl, rfl⟩
  rw [hheader.1] at hzero
  rw [hheader.2]
  exact hzero

/-! ## All frames -/

theorem getElem?_cleared (bytes : List UInt8) (i : Nat) :
    (cleared bytes)[i]? = bytes[i]?.map fun b => if IsReserved bytes i then 0 else b := by
  rw [cleared, List.getElem?_mapIdx]

theorem getElem?_cleared_of_not {i : Nat} (h : ¬IsReserved bytes i) :
    (cleared bytes)[i]? = bytes[i]? := by
  simp [getElem?_cleared, h]

theorem length_cleared (bytes : List UInt8) : (cleared bytes).length = bytes.length :=
  List.length_mapIdx

theorem cleared_of_none (h : frame? bytes = none) : cleared bytes = bytes := by
  refine List.ext_getElem? fun i => getElem?_cleared_of_not ?_
  rw [IsReserved, frames, split_of_none h]
  exact not_reservedIn_nil i

theorem cleared_of_frame? (h : frame? bytes = some (f, rest)) :
    cleared bytes = f.encode ++ cleared rest := by
  have hdrop := drop_of_frame? h
  obtain ⟨-, r₁, r₂, r₃, hbytes⟩ := frame?_eq_some_iff.mp h
  refine List.ext_getElem? fun i => ?_
  simp only [getElem?_cleared, IsReserved, frames_of_frame? h]
  by_cases hi : i < f.wireSize
  · have hencode : i < f.encode.length := by rwa [Frame.length_encode]
    simp only [List.getElem?_append_left hencode, reservedIn_of_lt hi, hbytes]
    match i, hi with
    | 0, _ => rfl
    | 1, _ => rfl
    | 2, _ => rfl
    | 3, _ => rfl
    | i + 4, hi =>
      have hrest : i < (f.encode.drop 4).length := by
        rw [List.length_drop]
        omega
      simp [List.getElem?_append_left hrest, List.getElem?_drop, Nat.add_comm]
  · obtain ⟨j, rfl⟩ := Nat.exists_eq_add_of_le (Nat.le_of_not_lt hi)
    rw [List.getElem?_append_right (by rw [Frame.length_encode]; omega), Frame.length_encode,
      Nat.add_sub_cancel_left, getElem?_cleared, ← List.getElem?_drop, hdrop]
    simp only [reservedIn_add]
    rfl

/-- The frames of a stream that are written again, and the bytes that belong to no frame, are the
stream with its reserved bytes cleared. -/
theorem encode_frames_append (bytes : List UInt8) :
    encode (frames bytes) ++ leftover bytes = cleared bytes := by
  fun_induction split bytes with
  | case1 bytes f rest hframe ih =>
    rw [frames_of_frame? hframe, leftover_of_frame? hframe, cleared_of_frame? hframe, ← ih, encode,
      List.flatMap_cons, List.append_assoc, encode]
  | case2 bytes hnone =>
    rw [cleared_of_none hnone, frames, leftover, split_of_none hnone]
    rfl

/-- The headers of the frames stand at their places. -/
theorem headerAt_places (bytes : List UInt8) :
    List.Forall₂ (HeaderAt bytes) (places (frames bytes)) (frames bytes) := by
  fun_induction split bytes with
  | case1 bytes f rest hframe ih =>
    rw [frames_of_frame? hframe]
    refine .cons (headerAt_of_frame? hframe) (List.forall₂_map_left_iff.mpr ?_)
    refine ih.imp fun start g hg => ?_
    rw [HeaderAt, ← List.drop_drop, drop_of_frame? hframe]
    exact hg
  | case2 bytes hnone =>
    rw [frames, split_of_none hnone]
    exact .nil

/-! ## Streams that differ in reserved bytes -/

/-- A frame is told by its bytes at the front, but for the reserved ones. -/
theorem frame?_of_agrees (hfit : f.payload.length < UInt32.size) (hlength : f.wireSize ≤ bytes.length)
    (hsame : ∀ i < f.wireSize, ¬(0 < i ∧ i ≤ 3) → bytes[i]? = f.encode[i]?) :
    frame? bytes = some (f, bytes.drop f.wireSize) := by
  have hsize : 8 ≤ f.wireSize := Nat.le_add_right _ _
  obtain ⟨k, hk⟩ : ∃ k, f.wireSize = k + 4 := ⟨f.wireSize - 4, by omega⟩
  -- what is behind the reserved bytes is taken as it is
  have htail : (bytes.drop 4).take k = f.encode.drop 4 := by
    refine List.ext_getElem? fun i => ?_
    by_cases hi : i < k
    · rw [List.getElem?_take_of_lt hi, List.getElem?_drop, List.getElem?_drop]
      exact hsame (4 + i) (by omega) (by omega)
    · rw [List.getElem?_eq_none, List.getElem?_eq_none]
      · rw [List.length_drop, Frame.length_encode]
        omega
      · rw [List.length_take]
        omega
  obtain ⟨t, r₁, r₂, r₃, a, b, c, d, tail, rfl⟩ := exists_header (Nat.le_trans hsize hlength)
  have htype : t = f.stream.id := by
    have hfirst := hsame 0 (by omega) (by omega)
    rw [encode_eq] at hfirst
    exact Option.some.inj hfirst
  refine frame?_eq_some_iff.mpr ⟨hfit, r₁, r₂, r₃, ?_⟩
  rw [← htail, ← htype, hk]
  simp only [List.drop_succ_cons, List.drop_zero, List.take_append_drop]

/-- Bytes that differ from written frames only in reserved bytes are these frames. -/
theorem split_of_agrees (hfit : ∀ f ∈ fs, f.payload.length < UInt32.size)
    (hlength : bytes.length = (encode fs).length)
    (hsame : ∀ i, ¬ReservedIn fs i → bytes[i]? = (encode fs)[i]?) : split bytes = (fs, []) := by
  induction fs generalizing bytes with
  | nil =>
    obtain rfl := List.length_eq_zero_iff.mp hlength
    exact split_of_none (frame?_of_short (Nat.zero_lt_succ 7))
  | cons f fs ih =>
    have hencode : encode (f :: fs) = f.encode ++ encode fs := rfl
    rw [length_encode_cons] at hlength
    have hframe : frame? bytes = some (f, bytes.drop f.wireSize) := by
      refine frame?_of_agrees (hfit f List.mem_cons_self) (by omega) fun i hi hplain => ?_
      have hi' := hsame i (mt (reservedIn_of_lt hi).mp hplain)
      rwa [hencode, List.getElem?_append_left (by rwa [Frame.length_encode])] at hi'
    have hrest : split (bytes.drop f.wireSize) = (fs, []) := by
      refine ih (fun g hg => hfit g (List.mem_cons_of_mem f hg)) ?_ fun i hi => ?_
      · rw [List.length_drop]
        omega
      · have hi' := hsame (f.wireSize + i) (mt (reservedIn_add i).mp hi)
        rw [hencode, List.getElem?_append_right (by rw [Frame.length_encode]; omega),
          Frame.length_encode, Nat.add_sub_cancel_left] at hi'
        rw [List.getElem?_drop]
        exact hi'
    rw [split_of_frame? hframe, hrest]

/-- A header can say the length of every payload in a stream. -/
theorem fits_frames (bytes : List UInt8) : ∀ f ∈ frames bytes, f.payload.length < UInt32.size := by
  fun_induction split bytes with
  | case1 bytes f rest hframe ih =>
    rw [frames_of_frame? hframe]
    exact List.forall_mem_cons.mpr ⟨(frame?_eq_some_iff.mp hframe).1, ih⟩
  | case2 bytes hnone =>
    rw [frames, split_of_none hnone]
    exact List.forall_mem_nil _

/-- Streams of whole frames have the same frames if they differ only in reserved bytes. -/
theorem frames_eq_iff {bytes' : List UInt8} (h : leftover bytes = []) (h' : leftover bytes' = []) :
    frames bytes = frames bytes' ↔ SameButReserved bytes bytes' := by
  have hencode : encode (frames bytes) = cleared bytes := by
    rw [← encode_frames_append, h, List.append_nil]
  have hencode' : encode (frames bytes') = cleared bytes' := by
    rw [← encode_frames_append, h', List.append_nil]
  constructor
  · intro hframes
    have hcleared : cleared bytes = cleared bytes' := by rw [← hencode, ← hencode', hframes]
    refine ⟨?_, fun i hdiffers => ?_⟩
    · rw [← length_cleared, hcleared, length_cleared]
    · -- where no byte was cleared, both streams can be read off what is written again
      by_contra hplain
      have hplain' : ¬IsReserved bytes' i := by rwa [IsReserved, ← hframes]
      rw [← getElem?_cleared_of_not hplain, ← getElem?_cleared_of_not hplain', hcleared] at hdiffers
      exact hdiffers rfl
  · rintro ⟨hlength, hsame⟩
    have hsplit : split bytes' = (frames bytes, []) := by
      refine split_of_agrees (fits_frames bytes) ?_ fun i hplain => ?_
      · rw [hencode, length_cleared, hlength]
      · rw [hencode, getElem?_cleared_of_not hplain]
        by_contra hdiffers
        exact hplain (hsame i (Ne.symm hdiffers))
    rw [frames, frames, hsplit, frames]

/-! ## The end of a stream -/

/-- The end of a stream is clean if it is the end of the transport and no byte is left over. -/
theorem verdict_eq_ended_iff {o : Outcome} : verdict o rest = .ended ↔ o = .closed ∧ rest = [] := by
  constructor
  · intro h
    cases o with
    | closed =>
      rcases verdict_closed rest with ⟨hrest, -⟩ | ⟨-, e, herror⟩
      · exact ⟨rfl, hrest⟩
      · rw [herror] at h
        cases h
    | _ =>
      rw [verdict] at h
      split at h <;> cases h
  · rintro ⟨rfl, rfl⟩
    rfl

/-- Answers that go from frames to the end have all frames before it. -/
theorem of_take_eq_concat {last : Answer} {more : List Answer} {fs' : List Frame} {n : Nat}
    (hlast : ∀ f, last ≠ .frame f)
    (h : (fs.map Answer.frame ++ last :: more).take n = fs'.map Answer.frame ++ [.ended]) :
    fs = fs' ∧ last = .ended := by
  induction fs generalizing fs' n with
  | nil =>
    cases n with
    | zero => simp at h
    | succ n =>
      cases fs' with
      | nil => exact ⟨rfl, (List.cons.inj h).1⟩
      | cons f fs' => exact absurd (List.cons.inj h).1 (hlast f)
  | cons f fs ih =>
    cases n with
    | zero => simp at h
    | succ n =>
      cases fs' with
      | nil => cases (List.cons.inj h).1
      | cons f' fs' =>
        obtain ⟨hfirst, hrest⟩ := List.cons.inj h
        obtain ⟨rfl, hended⟩ := ih hrest
        cases hfirst
        exact ⟨rfl, hended⟩

end Wire

namespace Script

/-- Calls on the script are answered, but for answers that come too early, by these frames and then by
the end of the stream. -/
def EndsCleanly (s : Script) (fs : List Frame) : Prop :=
  ∃ calls, (((Demux.new s.transport).session calls).filter fun e => !e.isTooEarly).map
    Exchange.answer = fs.map Answer.frame ++ [.ended]

/-- A script is read to a clean end if it comes to an end of file and its bytes are whole frames. -/
theorem endsCleanly_iff {s : Script} {fs : List Frame} :
    s.EndsCleanly fs ↔
      s.close = .endOfFile ∧ Wire.leftover s.bytes = [] ∧ fs = Wire.frames s.bytes := by
  constructor
  · rintro ⟨calls, hanswers⟩
    obtain ⟨n, -, hall⟩ := Demux.session_eq (Demux.ends_new s) calls
    rw [hanswers, Demux.upcoming_new, Wire.map_answers] at hall
    obtain ⟨hframes, hended⟩ := Wire.of_take_eq_concat (Wire.verdict_ne_frame _ _) hall.symm
    obtain ⟨hclosed, hleft⟩ := Wire.verdict_eq_ended_iff.mp hended
    refine ⟨?_, hleft, hframes.symm⟩
    cases hclose : s.close with
    | endOfFile => rfl
    | failure e hlasting =>
      rw [hclose] at hclosed
      cases hclosed
  · rintro ⟨hclose, hleft, rfl⟩
    -- one call that waits for each frame, and one for the end
    refine ⟨List.replicate ((Wire.frames s.bytes).length + 1) .next, ?_⟩
    have hended : Wire.verdict s.close.outcome (Wire.leftover s.bytes) = .ended := by
      rw [hclose]
      exact Wire.verdict_eq_ended_iff.mpr ⟨rfl, hleft⟩
    rw [Demux.filter_session_next, Demux.session_next (Demux.ends_new s), Demux.upcoming_new,
      Wire.map_answers, hended, List.append_cons]
    exact List.take_left' (by simp)

/-- The frames of a script that `EndsCleanly`, written again by `Wire.encode`, are its bytes with
the reserved ones `cleared`.  So two scripts have the same frames just if they are
`Wire.SameButReserved`. -/
theorem encode_of_endsCleanly {s : Script} {fs : List Frame} (h : s.EndsCleanly fs) :
    Wire.encode fs = Wire.cleared s.bytes ∧ (Wire.encode fs).length = s.bytes.length ∧
      List.Forall₂ (Wire.HeaderAt s.bytes) (Wire.places fs) fs ∧
      ∀ s' fs', EndsCleanly s' fs' → (fs = fs' ↔ Wire.SameButReserved s.bytes s'.bytes) := by
  obtain ⟨-, hleft, rfl⟩ := endsCleanly_iff.mp h
  have hencode : Wire.encode (Wire.frames s.bytes) = Wire.cleared s.bytes := by
    rw [← Wire.encode_frames_append, hleft, List.append_nil]
  refine ⟨hencode, ?_, Wire.headerAt_places s.bytes, ?_⟩
  · rw [hencode, Wire.length_cleared]
  · intro s' fs' h'
    obtain ⟨-, hleft', rfl⟩ := endsCleanly_iff.mp h'
    exact Wire.frames_eq_iff hleft hleft'

/-- A frame and an empty one, with reserved bytes that are not zero, read in two pieces. -/
theorem encode_of_endsCleanly_of_two_frames :
    let s : Script := ⟨[.chunk [1, 9, 8, 7, 0, 0] (by decide), .notReady,
      .chunk [0, 2, 104, 105, 2, 0, 255, 0, 0, 0, 0, 0] (by decide)], .endOfFile⟩
    let fs : List Frame := [⟨.stdout, [104, 105]⟩, ⟨.stderr, []⟩]
    s.EndsCleanly fs ∧ Wire.encode fs = Wire.cleared s.bytes ∧
      (Wire.encode fs).length = s.bytes.length ∧
      List.Forall₂ (Wire.HeaderAt s.bytes) (Wire.places fs) fs ∧
      ∀ s' fs', EndsCleanly s' fs' → (fs = fs' ↔ Wire.SameButReserved s.bytes s'.bytes) := by
  intro s fs
  have hfirst : Wire.frame? s.bytes = some (⟨.stdout, [104, 105]⟩, [2, 0, 255, 0, 0, 0, 0, 0]) := by
    decide
  have hsecond : Wire.frame? [2, 0, 255, 0, 0, 0, 0, 0] = some (⟨.stderr, []⟩, []) := by
    decide
  have hsplit : Wire.split s.bytes = (fs, []) := by
    rw [Wire.split_of_frame? hfirst, Wire.split_of_frame? hsecond, Wire.split_of_none rfl]
  have h : s.EndsCleanly fs :=
    endsCleanly_iff.mpr ⟨rfl, by rw [Wire.leftover, hsplit], by rw [Wire.frames, hsplit]⟩
  exact ⟨h, encode_of_endsCleanly h⟩

end Script

end BuildStep
