import BuildStep.IoError

/-! # Where the bytes of a stream come from

A transport is known only through its reads, so it is the list of what its next reads answer,
together with what they answer after that.

* `Reply.ofBytes` cuts what was written at once into what single reads return.
* `Transport.read` is one read.
* `Transport.length_read_lt`: a read that gives bytes or fails uses up a reply.
* `Transport.readInduction`: so whoever reads on comes to an end, or waits for ever. -/

namespace BuildStep

/-- What one read of a transport answers. -/
inductive Reply
  /-- Some bytes; a read of no bytes at all is how a transport reports its end. -/
  | bytes (bs : List UInt8)
  /-- Nothing can be read at the moment. -/
  | notReady
  /-- The read failed. -/
  | failed (e : IoError)
  /-- The transport is at its end, and stays there. -/
  | ended
deriving DecidableEq, Repr

namespace Reply

/-- Most bytes that one read returns. -/
def room : Nat := 8 * 1024

/-- The reads that return bytes which were written at once. -/
def ofBytes (bs : List UInt8) : List Reply :=
  if bs.length ≤ room then [.bytes bs]
  else .bytes (bs.take room) :: ofBytes (bs.drop room)
termination_by bs.length
decreasing_by simp only [List.length_drop, room] at *; omega

/-- The bytes that a read returns. -/
def content : Reply → List UInt8
  | .bytes bs => bs
  | _ => []

end Reply

/-- What a transport answers once it has nothing more to give. -/
inductive Ending
  /-- Its end was reached. -/
  | closed
  /-- The other side keeps it open without writing. -/
  | silent
deriving DecidableEq, Repr

/-- A source of bytes. -/
structure Transport where
  replies : List Reply
  ending : Ending
deriving DecidableEq, Repr

namespace Transport

/-- One read, and the transport after it. -/
def read (t : Transport) : Reply × Transport :=
  match t.replies with
  | [] =>
    match t.ending with
    | .closed => (.ended, t)
    | .silent => (.notReady, t)
  | .ended :: _ => (.ended, t)
  | .bytes [] :: rest => (.ended, ⟨rest, t.ending⟩)
  | reply :: rest => (reply, ⟨rest, t.ending⟩)

/-- The transport with one more reply after those it has. -/
def feed (t : Transport) (reply : Reply) : Transport :=
  ⟨t.replies ++ [reply], t.ending⟩

/-- All bytes that were written to the transport and not read yet. -/
def content (t : Transport) : List UInt8 :=
  t.replies.flatMap Reply.content

theorem length_read_lt {t t' : Transport} {reply : Reply} (h : t.read = (reply, t'))
    (hready : reply ≠ .notReady) (hend : reply ≠ .ended) :
    t'.replies.length < t.replies.length := by
  unfold read at h
  split at h
  · split at h <;> simp_all
  · simp_all
  · simp_all
  · rename_i _ _ heq
    cases h
    simp [heq]

theorem length_read_le {t t' : Transport} {reply : Reply} (h : t.read = (reply, t')) :
    t'.replies.length ≤ t.replies.length := by
  unfold read at h
  split at h
  · split at h <;> simp_all
  · cases h; simp
  · rename_i heq
    cases h; simp [heq]
  · rename_i _ _ heq
    cases h; simp [heq]

/-- A read that is not ready uses up a reply, or changes nothing. -/
theorem length_read_of_ne {t t' : Transport} (h : t.read = (.notReady, t')) (hne : t' ≠ t) :
    t'.replies.length < t.replies.length := by
  unfold read at h
  split at h
  · split at h
    · simp at h
    · cases h
      exact absurd rfl hne
  · simp at h
  · simp at h
  · rename_i heq
    cases h
    simp [heq]

/-- Induction along the reads of a transport, up to its end or until it is silent. -/
theorem readInduction {P : Transport → Prop}
    (ended : ∀ t t', t.read = (.ended, t') → P t)
    (silent : ∀ t, t.read = (.notReady, t) → P t)
    (waited : ∀ t t', t.read = (.notReady, t') → t' ≠ t → P t' → P t)
    (bytes : ∀ t t' bs, t.read = (.bytes bs, t') → P t' → P t)
    (failed : ∀ t t' e, t.read = (.failed e, t') → P t' → P t) (t : Transport) : P t := by
  induction hlength : t.replies.length using Nat.strongRecOn generalizing t with
  | _ left ih =>
    subst hlength
    match hread : t.read with
    | (.ended, t') => exact ended t t' hread
    | (.bytes bs, t') =>
      have hlt := length_read_lt hread (by simp) (by simp)
      exact bytes t t' bs hread (ih _ hlt t' rfl)
    | (.failed e, t') =>
      have hlt := length_read_lt hread (by simp) (by simp)
      exact failed t t' e hread (ih _ hlt t' rfl)
    | (.notReady, t') =>
      by_cases hsame : t' = t
      · subst hsame
        exact silent t' hread
      · exact waited t t' hread hsame (ih _ (length_read_of_ne hread hsame) t' rfl)

/-- A read takes its bytes from the front of what is left. -/
theorem content_read {t t' : Transport} {bs : List UInt8} (h : t.read = (.bytes bs, t')) :
    t.content = bs ++ t'.content := by
  unfold read at h
  split at h
  · split at h <;> simp_all
  · simp_all
  · simp_all
  · rename_i _ _ heq
    cases h
    simp [content, heq, Reply.content]

/-- A read that gives no bytes takes none. -/
theorem content_read_none {t t' : Transport} {reply : Reply} (h : t.read = (reply, t'))
    (hnone : reply.content = []) : t'.content = t.content := by
  unfold read at h
  split at h
  · split at h <;> cases h <;> rfl
  · cases h; rfl
  · rename_i heq
    cases h
    simp [content, heq, Reply.content]
  · rename_i _ _ heq
    cases h
    simp [content, heq, hnone]

end Transport

end BuildStep
