/-! # Frames of an attach stream

A container engine sends the three standard streams of a container over one connection, cut into
frames.  A frame is a header of eight bytes and a payload: the first byte of the header names the
stream, the next three are reserved, the last four are the length of the payload, most significant
byte first.

* `Header.read` takes a header from the front of some bytes, `Header.encode` writes one.
* `Front.of` says what stands at the front of some bytes: a whole frame, a header that names no
  stream, or too few bytes to tell.
* `Front.of_encode`: a frame that was written is what stands at the front of its bytes. -/

namespace BuildStep

/-- One of the three standard streams. -/
inductive StreamType
  | stdin
  | stdout
  | stderr
deriving DecidableEq, Repr

namespace StreamType

/-- All streams, in the order of their wire identifiers. -/
def all : List StreamType := [.stdin, .stdout, .stderr]

/-- The byte that names the stream in a header. -/
def id : StreamType → UInt8
  | .stdin => 0
  | .stdout => 1
  | .stderr => 2

/-- The stream that a byte names. -/
def ofId? (b : UInt8) : Option StreamType :=
  if b = 0 then some .stdin
  else if b = 1 then some .stdout
  else if b = 2 then some .stderr
  else none

/-- The name of the stream. -/
def name : StreamType → String
  | .stdin => "stdin"
  | .stdout => "stdout"
  | .stderr => "stderr"

theorem ofId?_id (s : StreamType) : ofId? s.id = some s := by
  cases s <;> rfl

theorem id_of_ofId? {b : UInt8} {s : StreamType} (h : ofId? b = some s) : s.id = b := by
  unfold ofId? at h
  split at h
  · cases h; simp_all [id]
  split at h
  · cases h; simp_all [id]
  split at h
  · cases h; simp_all [id]
  · cases h

end StreamType

/-- What the eight bytes before a payload say. -/
structure Header where
  stream : StreamType
  length : UInt32
deriving DecidableEq, Repr

namespace Header

/-- Number of bytes of a header. -/
def size : Nat := 8

/-- The number that four bytes write, most significant byte first. -/
def lengthOf (a b c d : UInt8) : UInt32 :=
  UInt32.ofNat (((a.toNat * 256 + b.toNat) * 256 + c.toNat) * 256 + d.toNat)

/-- Writes a header; the reserved bytes are zero. -/
def encode (h : Header) : List UInt8 :=
  let n := h.length.toNat
  [h.stream.id, 0, 0, 0, UInt8.ofNat (n / 256 / 256 / 256), UInt8.ofNat (n / 256 / 256 % 256),
    UInt8.ofNat (n / 256 % 256), UInt8.ofNat (n % 256)]

/-- Takes a header from the front of some bytes: nothing if there are fewer than eight of them, the
first byte if it names no stream, or else the header and the bytes after it.  The reserved bytes
are not looked at. -/
def read : List UInt8 → Option (Except UInt8 (Header × List UInt8))
  | t :: _ :: _ :: _ :: a :: b :: c :: d :: rest =>
    match StreamType.ofId? t with
    | some s => some (.ok (⟨s, lengthOf a b c d⟩, rest))
    | none => some (.error t)
  | _ => none

theorem length_encode (h : Header) : h.encode.length = size := rfl

theorem lengthOf_digits (n : UInt32) :
    lengthOf (UInt8.ofNat (n.toNat / 256 / 256 / 256)) (UInt8.ofNat (n.toNat / 256 / 256 % 256))
      (UInt8.ofNat (n.toNat / 256 % 256)) (UInt8.ofNat (n.toNat % 256)) = n := by
  have hn := n.toNat_lt
  apply UInt32.toNat.inj
  simp only [lengthOf, UInt8.toNat_ofNat', UInt32.toNat_ofNat']
  omega

theorem read_encode (h : Header) (rest : List UInt8) :
    read (h.encode ++ rest) = some (.ok (h, rest)) := by
  simp [encode, read, StreamType.ofId?_id, lengthOf_digits]

end Header

/-- One piece of the output of a stream. -/
structure Frame where
  stream : StreamType
  payload : List UInt8
deriving DecidableEq, Repr

namespace Frame

/-- The header that announces the frame. -/
def header (f : Frame) : Header :=
  ⟨f.stream, UInt32.ofNat f.payload.length⟩

/-- The bytes of the frame on the wire. -/
def encode (f : Frame) : List UInt8 :=
  f.header.encode ++ f.payload

/-- Number of bytes of the frame on the wire. -/
def wireSize (f : Frame) : Nat :=
  Header.size + f.payload.length

theorem length_encode (f : Frame) : f.encode.length = f.wireSize := by
  simp [encode, wireSize, Header.length_encode]

end Frame

/-- What stands at the front of some bytes. -/
inductive Front
  /-- Too few bytes for a header, or for the payload that the header announces. -/
  | incomplete
  /-- A header whose first byte names no stream. -/
  | unknown (byte : UInt8)
  /-- A frame, and the bytes after it. -/
  | whole (frame : Frame) (rest : List UInt8)
deriving DecidableEq, Repr

namespace Front

/-- Reads the front of some bytes. -/
def of (bytes : List UInt8) : Front :=
  match Header.read bytes with
  | none => .incomplete
  | some (.error b) => .unknown b
  | some (.ok (h, rest)) =>
    if rest.length < h.length.toNat then .incomplete
    else .whole ⟨h.stream, rest.take h.length.toNat⟩ (rest.drop h.length.toNat)

theorem of_encode (f : Frame) (rest : List UInt8) (h : f.payload.length < UInt32.size) :
    of (f.encode ++ rest) = .whole f rest := by
  have hlen : (UInt32.ofNat f.payload.length).toNat = f.payload.length := by
    rw [UInt32.toNat_ofNat']
    exact Nat.mod_eq_of_lt h
  simp [of, Frame.encode, Header.read_encode, Frame.header, List.append_assoc, hlen]

/-- A frame at the front and the bytes after it account for all bytes. -/
theorem length_of_whole {bytes : List UInt8} {f : Frame} {rest : List UInt8}
    (h : of bytes = .whole f rest) : f.wireSize + rest.length = bytes.length := by
  unfold of at h
  split at h
  · cases h
  · cases h
  · rename_i hd tail hread
    split at h
    · cases h
    · rename_i hlen
      cases h
      unfold Header.read at hread
      split at hread
      · split at hread
        · cases hread
          simp only [Frame.wireSize, Header.size, List.length_take, List.length_drop,
            List.length_cons]
          omega
        · cases hread
      · cases hread

end Front

end BuildStep
