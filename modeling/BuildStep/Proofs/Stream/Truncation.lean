import BuildStep.Proofs.Stream.Session

/-!
# A stream that breaks off

Frames that were written one after the other are read back, and a stream of them that breaks off
anywhere tells exactly where: between two frames, inside a header, or inside a payload.  A reader
never makes up a frame from what is left.

## Key results

- `Wire.split_encode`: what was written is what stands in the bytes
- `Wire.verdict_take_encode`: the verdict on the beginning of a frame
- `Wire.exists_cutAt`: any cut leaves whole frames and a part of the next
- `Script.next_answers_of_cut`: what a reader answers on frames that were cut off
-/

namespace BuildStep

namespace Wire

/-- The bytes of frames that are written one after the other. -/
def encode (fs : List Frame) : List UInt8 :=
  fs.flatMap Frame.encode

/-! ## Whole frames -/

theorem frame?_encode {f : Frame} (h : f.payload.length < UInt32.size) (rest : List UInt8) :
    frame? (f.encode ++ rest) = some (f, rest) :=
  Front.of_eq_whole_iff.mp (Front.of_encode f rest h)

/-- What was written stands in the bytes, whatever comes after it. -/
theorem split_encode (fs : List Frame) (h : ∀ f ∈ fs, f.payload.length < UInt32.size)
    (rest : List UInt8) :
    split (encode fs ++ rest) = (fs ++ (split rest).1, (split rest).2) := by
  induction fs with
  | nil => rfl
  | cons f fs ih =>
    have hf : frame? (f.encode ++ (encode fs ++ rest)) = some (f, encode fs ++ rest) :=
      frame?_encode (h f List.mem_cons_self) _
    have hfs := ih fun g hg => h g (List.mem_cons_of_mem f hg)
    rw [encode, List.flatMap_cons, List.append_assoc]
    refine (split_of_frame? hf).trans ?_
    rw [hfs]
    rfl

/-! ## The beginning of a frame -/

/-- A part of a frame is no frame: with the bytes that are missing it would be the frame itself, and
no byte would be missing. -/
theorem frame?_take_encode {f : Frame} (h : f.payload.length < UInt32.size) {d : Nat}
    (hd : d < f.wireSize) : frame? (f.encode.take d) = none := by
  cases hframe : frame? (f.encode.take d) with
  | none => rfl
  | some p =>
    -- the frame at the front would keep its rest, of which the missing bytes are a part
    have hwhole := frame?_append (f.encode.drop d) hframe
    have hself := frame?_encode h []
    rw [List.take_append_drop] at hwhole
    rw [List.append_nil, hwhole, Option.some.injEq, Prod.mk.injEq, List.append_eq_nil_iff,
      List.drop_eq_nil_iff, Frame.length_encode] at hself
    omega

/-- The header of a frame tells its stream, also when the frame is cut off. -/
theorem badType?_take_encode {f : Frame} (h : f.payload.length < UInt32.size) (d : Nat) :
    badType? (f.encode.take d) = none := by
  cases hbad : badType? (f.encode.take d) with
  | none => rfl
  | some x =>
    -- the header would be at fault in the whole frame too
    have hwhole := frame?_of_badType? (badType?_append (f.encode.drop d) hbad)
    have hself := frame?_encode h []
    rw [List.take_append_drop] at hwhole
    rw [List.append_nil, hwhole] at hself
    cases hself

theorem announced_encode (h : Header) (rest : List UInt8) :
    announced (h.encode ++ rest) = h.length.toNat := by
  simp only [Header.encode, List.cons_append, List.nil_append]
  rw [announced_header, ← Header.toNat_lengthOf, Header.lengthOf_digits]

/-- The header of a frame announces its payload, also when the payload is cut off. -/
theorem announced_take_encode (f : Frame) {d : Nat} (hd : 8 ≤ d) :
    UInt32.ofNat (announced (f.encode.take d)) = UInt32.ofNat f.payload.length := by
  -- the cut is behind the header, which takes eight bytes
  have hlen : f.header.encode.length ≤ d := hd
  rw [Frame.encode, List.take_append, List.take_of_length_le hlen, announced_encode,
    UInt32.ofNat_toNat]
  rfl

/-- The verdict on the first `d` bytes of a frame. -/
theorem verdict_take_encode {f : Frame} (h : f.payload.length < UInt32.size) {d : Nat}
    (hd : d < f.wireSize) :
    verdict .closed (f.encode.take d) =
      if d = 0 then .ended
      else if d < 8 then .error (.truncatedHeader d)
      else .error (.truncatedPayload (UInt32.ofNat f.payload.length) (d - 8)) := by
  have hlen : (f.encode.take d).length = d := by
    rw [List.length_take, Frame.length_encode]
    omega
  rw [verdict, badType?_take_encode h d, hlen]
  by_cases hfull : 8 ≤ d
  · rw [announced_take_encode f hfull]
  · have hzero : d < 8 := by omega
    simp only [hzero, if_true]

/-! ## Where a cut falls -/

/-- The first `k` bytes of some frames hold `n` of them whole and `d` bytes of the next. -/
structure CutAt (fs : List Frame) (k n d : Nat) : Prop where
  count_le : n ≤ fs.length
  position : (encode (fs.take n)).length + d = k
  inside : ∀ f, fs[n]? = some f → d < f.wireSize

/-- What a cut leaves of the frame it falls into. -/
def part (fs : List Frame) (n d : Nat) : List UInt8 :=
  match fs[n]? with
  | some f => f.encode.take d
  | none => []

theorem length_encode_cons (f : Frame) (fs : List Frame) :
    (encode (f :: fs)).length = f.wireSize + (encode fs).length := by
  rw [encode, List.flatMap_cons, List.length_append, Frame.length_encode, encode]

/-- Any cut leaves whole frames and a part of the next. -/
theorem exists_cutAt (fs : List Frame) {k : Nat} (hk : k ≤ (encode fs).length) :
    ∃ n d, CutAt fs k n d ∧ (encode fs).take k = encode (fs.take n) ++ part fs n d := by
  induction fs generalizing k with
  | nil =>
    have hzero : k = 0 := by simpa [encode] using hk
    subst hzero
    exact ⟨0, 0, ⟨Nat.le_refl 0, rfl, fun f hf => by cases hf⟩, rfl⟩
  | cons f fs ih =>
    rw [length_encode_cons] at hk
    have hcons : encode (f :: fs) = f.encode ++ encode fs := rfl
    by_cases hwhole : f.wireSize ≤ k
    · -- the first frame is whole, and the cut falls behind it
      obtain ⟨n, d, hcut, htake⟩ := ih (show k - f.wireSize ≤ (encode fs).length by omega)
      refine ⟨n + 1, d, ⟨?_, ?_, hcut.inside⟩, ?_⟩
      · have := hcut.count_le
        rw [List.length_cons]
        omega
      · have := hcut.position
        rw [List.take_succ_cons, length_encode_cons]
        omega
      · rw [hcons, List.take_append, Frame.length_encode, htake,
          List.take_of_length_le (by rw [Frame.length_encode]; exact hwhole)]
        exact (List.append_assoc _ _ _).symm
    · -- the cut falls into the first frame
      refine ⟨0, k, ⟨Nat.zero_le _, Nat.zero_add k, ?_⟩, ?_⟩
      · intro g hg
        cases hg
        omega
      · rw [hcons, List.take_append_of_le_length (by rw [Frame.length_encode]; omega)]
        rfl

/-- What the end of the bytes says when `d` bytes of the next frame are there. -/
inductive SaidAtCut (next? : Option Frame) : Nat → Answer → Prop
  | between : SaidAtCut next? 0 .ended
  | inHeader {d : Nat} : 0 < d → d < 8 → SaidAtCut next? d (.error (.truncatedHeader d))
  | inPayload {d : Nat} {f : Frame} {expected : UInt32} :
    8 ≤ d → next? = some f → expected.toNat = f.payload.length →
    SaidAtCut next? d (.error (.truncatedPayload expected (d - 8)))

variable {fs : List Frame} {k n d : Nat}

/-- The part of a frame at a cut is no frame. -/
theorem CutAt.frame?_part (hcut : CutAt fs k n d)
    (h : ∀ f ∈ fs, f.payload.length < UInt32.size) : frame? (part fs n d) = none := by
  unfold part
  split
  · rename_i f hf
    exact frame?_take_encode (h f (List.mem_of_getElem? hf)) (hcut.inside f hf)
  · exact frame?_of_short (Nat.zero_lt_succ 7)

/-- The whole frames at a cut are all frames that are left, and the part is all that is left over. -/
theorem CutAt.split_eq (hcut : CutAt fs k n d) (h : ∀ f ∈ fs, f.payload.length < UInt32.size) :
    split (encode (fs.take n) ++ part fs n d) = (fs.take n, part fs n d) := by
  rw [split_encode _ (fun f hf => h f (List.mem_of_mem_take hf)),
    split_of_none (hcut.frame?_part h), List.append_nil]

/-- Behind the last frame there is nothing to cut into. -/
theorem CutAt.eq_zero (hcut : CutAt fs k n d) (hk : k ≤ (encode fs).length)
    (hn : fs[n]? = none) : d = 0 := by
  have hposition := hcut.position
  rw [List.take_of_length_le (List.getElem?_eq_none_iff.mp hn)] at hposition
  omega

theorem CutAt.saidAtCut (hcut : CutAt fs k n d) (hk : k ≤ (encode fs).length)
    (h : ∀ f ∈ fs, f.payload.length < UInt32.size) :
    SaidAtCut fs[n]? d (verdict .closed (part fs n d)) := by
  cases hf : fs[n]? with
  | none =>
    -- all frames are whole
    obtain rfl := hcut.eq_zero hk hf
    simp only [part, hf]
    exact .between
  | some f =>
    have hfit := h f (List.mem_of_getElem? hf)
    simp only [part, hf, verdict_take_encode hfit (hcut.inside f hf)]
    -- the cut is before the next frame, inside its header, or inside its payload
    by_cases hzero : d = 0
    · subst hzero
      exact .between
    · rw [if_neg hzero]
      by_cases hheader : d < 8
      · rw [if_pos hheader]
        exact .inHeader (by omega) hheader
      · rw [if_neg hheader]
        exact .inPayload (by omega) rfl (UInt32.toNat_ofNat_of_lt' hfit)

/-- The first entries of a list that goes on with `x`. -/
theorem map_range_getD {α : Type} (l : List α) (x : α) (m : Nat) :
    ((List.range m).map fun i => l[i]?.getD x) = (l ++ List.replicate m x).take m := by
  apply List.ext_getElem
  · simp only [List.length_map, List.length_range, List.length_take, List.length_append,
      List.length_replicate]
    omega
  · intro i hi hi'
    simp only [List.getElem_map, List.getElem_range, List.getElem_take, List.getElem_append]
    split
    · rename_i hlt
      rw [List.getElem?_eq_getElem hlt, Option.getD_some]
    · rename_i hge
      rw [List.getElem?_eq_none (by omega), Option.getD_none, List.getElem_replicate]

/-- The first answers on some bytes, as a list. -/
theorem map_answers (o : Outcome) (bytes : List UInt8) (m : Nat) :
    (List.range m).map (answers o bytes) =
      ((frames bytes).map Answer.frame ++
        verdict o (leftover bytes) :: List.replicate m .ended).take m := by
  rw [List.append_cons]
  exact map_range_getD _ _ m

end Wire

namespace Demux

theorem length_session (d : Demux) (calls : List ReadCall) :
    (d.session calls).length = calls.length := by
  induction calls generalizing d with
  | nil => rfl
  | cons c calls ih => rw [session, List.length_cons, List.length_cons, ih]

theorem call_mem_of_mem_session {d : Demux} {calls : List ReadCall} {e : Exchange}
    (h : e ∈ d.session calls) : e.call ∈ calls := by
  induction calls generalizing d with
  | nil => cases h
  | cons c calls ih =>
    rw [session, List.mem_cons] at h
    obtain rfl | h := h
    · exact List.mem_cons_self
    · exact List.mem_cons_of_mem c (ih h)

/-- A call that waits is never answered too early. -/
theorem filter_session_next (d : Demux) (m : Nat) :
    ((d.session (List.replicate m .next)).filter fun e => !e.isTooEarly) =
      d.session (List.replicate m .next) := by
  rw [List.filter_eq_self]
  rintro ⟨c, a, finished⟩ he
  obtain rfl : c = .next := List.eq_of_mem_replicate (call_mem_of_mem_session he)
  rfl

/-- A session of calls that wait has an answer for each of them. -/
theorem session_next {d : Demux} (hends : d.Ends) (m : Nat) :
    (d.session (List.replicate m .next)).map Exchange.answer = (List.range m).map d.upcoming := by
  obtain ⟨n, -, hanswers⟩ := session_eq hends (List.replicate m .next)
  rw [filter_session_next] at hanswers
  have hlen := congrArg List.length hanswers
  rw [List.length_map, length_session, List.length_replicate, List.length_map,
    List.length_range] at hlen
  rw [hanswers, hlen]

end Demux

/-- On a stream of frames that is cut at `k`, `Demux.next` gives the frames before `Wire.CutAt`,
then what is `Wire.SaidAtCut`, then `ended`. -/
theorem Script.next_answers_of_cut (fs : List Frame)
    (hfit : ∀ f ∈ fs, f.payload.length < UInt32.size) (k : Nat)
    (hk : k ≤ (Wire.encode fs).length) (s : Script) (hbytes : s.bytes = (Wire.encode fs).take k)
    (hclose : s.close = .endOfFile) :
    ∃ n d last, Wire.CutAt fs k n d ∧ Wire.SaidAtCut fs[n]? d last ∧
      ∀ m, ((Demux.new s.transport).session (List.replicate m .next)).map Exchange.answer =
        ((fs.take n).map Answer.frame ++ last :: List.replicate m .ended).take m := by
  obtain ⟨n, d, hcut, htake⟩ := Wire.exists_cutAt fs hk
  refine ⟨n, d, _, hcut, hcut.saidAtCut hk hfit, fun m => ?_⟩
  rw [Demux.session_next (Demux.ends_new s), Demux.upcoming_new, hclose, Script.Close.outcome,
    Wire.map_answers, hbytes, htake, Wire.frames, Wire.leftover, hcut.split_eq hfit]

/-- Three frames of 10, 8 and 11 bytes, of which one byte is missing, read in two pieces. -/
theorem Script.next_answers_of_missing_byte :
    (∀ f ∈ ([⟨.stdout, [104, 105]⟩, ⟨.stderr, []⟩, ⟨.stdout, [1, 2, 3]⟩] : List Frame),
        f.payload.length < UInt32.size) ∧
      28 ≤ (Wire.encode [⟨.stdout, [104, 105]⟩, ⟨.stderr, []⟩, ⟨.stdout, [1, 2, 3]⟩]).length ∧
      ∃ n d last,
        Wire.CutAt [⟨.stdout, [104, 105]⟩, ⟨.stderr, []⟩, ⟨.stdout, [1, 2, 3]⟩] 28 n d ∧
        Wire.SaidAtCut
          ([⟨.stdout, [104, 105]⟩, ⟨.stderr, []⟩, ⟨.stdout, [1, 2, 3]⟩] : List Frame)[n]? d last ∧
        ∀ m,
          ((Demux.new (Script.transport
              ⟨[.chunk [1, 0, 0, 0, 0] (by decide), .notReady,
                .chunk [0, 0, 2, 104, 105, 2, 0, 0, 0, 0, 0, 0, 0, 1, 0, 0, 0, 0, 0, 0, 3, 1, 2]
                  (by decide)], .endOfFile⟩)).session
            (List.replicate m .next)).map Exchange.answer =
          ((([⟨.stdout, [104, 105]⟩, ⟨.stderr, []⟩, ⟨.stdout, [1, 2, 3]⟩] : List Frame).take n).map
            Answer.frame ++ last :: List.replicate m .ended).take m :=
  ⟨by decide, by decide,
    Script.next_answers_of_cut _ (by decide) 28 (by decide) _ (by decide) rfl⟩

end BuildStep
