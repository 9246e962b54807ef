import BuildStep.Text.Basic

/-! # UTF-8, written and read leniently

`Utf8.encode` writes a text as bytes.  `Utf8.decode` reads any bytes: it is a machine that stands
either between characters or inside one, takes a byte at a time and writes the characters that the
byte completes.  A byte that cannot continue the unfinished character ends it as U+FFFD and is then
read from between characters, so there is one U+FFFD for each maximal start of a character that
is not completed, and one for each byte that starts none.

`Utf8.check` finds the first place where bytes are not UTF-8.

* `run_append`: reading two parts is reading the first, then the second from where it ended. -/

namespace BuildStep.Utf8

/-- The character that stands for bytes that are not UTF-8. -/
def replacement : Char := '\uFFFD'

/-- A place inside a character: how many bytes it still owes, the least and the greatest value the
next one may have, how many were read, and the value they give so far. -/
structure Partial where
  owed : Nat
  low : Nat
  high : Nat
  seen : Nat
  code : Nat
deriving DecidableEq, Repr

/-- What a byte does between characters. -/
inductive Start
  /-- It is a character of its own. -/
  | whole (c : Char)
  /-- It starts a longer character. -/
  | opens (p : Partial)
  /-- It starts no character. -/
  | refused
deriving DecidableEq, Repr

/-- The number of bytes of the character that `b` starts, for a byte that starts a long one. -/
def width? (b : UInt8) : Option Nat :=
  if 0xC2 ≤ b && b ≤ 0xDF then some 2
  else if 0xE0 ≤ b && b ≤ 0xEF then some 3
  else if 0xF0 ≤ b && b ≤ 0xF4 then some 4
  else none

/-- A byte that only ever continues a character. -/
def isContinuation (b : UInt8) : Bool :=
  0x80 ≤ b && b ≤ 0xBF

/-- The least byte that may follow `b`, which starts a long character: smaller ones would write a
character that has a shorter form. -/
def lowAfter (b : UInt8) : Nat :=
  if b = 0xE0 then 0xA0 else if b = 0xF0 then 0x90 else 0x80

/-- The greatest byte that may follow `b`, which starts a long character: greater ones would write
a surrogate or a value past U+10FFFF. -/
def highAfter (b : UInt8) : Nat :=
  if b = 0xED then 0x9F else if b = 0xF4 then 0x8F else 0xBF

/-- Reads a byte between characters. -/
def start (b : UInt8) : Start :=
  if b < 0x80 then .whole (Char.ofNat b.toNat)
  else
    match width? b with
    | some 2 => .opens ⟨1, lowAfter b, highAfter b, 1, b.toNat - 0xC0⟩
    | some 3 => .opens ⟨2, lowAfter b, highAfter b, 1, b.toNat - 0xE0⟩
    | some _ => .opens ⟨3, lowAfter b, highAfter b, 1, b.toNat - 0xF0⟩
    | none => .refused

/-- Where the machine stands: between characters, or inside one. -/
abbrev State := Option Partial

/-- Reads a byte between characters, and writes what it completes. -/
def begin (b : UInt8) : Text × State :=
  match start b with
  | .whole c => ([c], none)
  | .opens p => ([], some p)
  | .refused => ([replacement], none)

/-- Reads one byte: the characters written, and where the machine stands then. -/
def step : State → UInt8 → Text × State
  | none, b => begin b
  | some p, b =>
    if p.low ≤ b.toNat && b.toNat ≤ p.high then
      let code := p.code * 64 + (b.toNat - 0x80)
      if p.owed ≤ 1 then ([Char.ofNat code], none)
      else ([], some ⟨p.owed - 1, 0x80, 0xBF, p.seen + 1, code⟩)
    else
      let (written, s) := begin b
      (replacement :: written, s)

/-- What the end of the bytes writes: an unfinished character becomes U+FFFD. -/
def finish : State → Text
  | none => []
  | some _ => [replacement]

/-- Reads bytes in order, with the characters written so far last to first. -/
def runFrom (written : Text) (s : State) (bytes : List UInt8) : Text × State :=
  bytes.foldl (fun (written, s) b => let (more, s) := step s b; (more.reverse ++ written, s))
    (written, s)

/-- Reads bytes in order: the characters written, and where the machine stands then. -/
def run (s : State) (bytes : List UInt8) : Text × State :=
  let (written, s) := runFrom [] s bytes
  (written.reverse, s)

/-- Reads bytes as UTF-8, with U+FFFD for what is none. -/
def decode (bytes : List UInt8) : Text :=
  let (written, s) := run none bytes
  written ++ finish s

/-- Writes a text as bytes. -/
def encode (t : Text) : List UInt8 :=
  t.flatMap String.utf8EncodeChar

/-- The number of bytes that a text is written in. -/
def size (t : Text) : Nat :=
  t.foldl (fun n c => n + c.utf8Size) 0

/-- Where and how bytes fail to be UTF-8. -/
structure Flaw where
  /-- Number of bytes before the character that fails. -/
  offset : Nat
  /-- Number of bytes of that character, or nothing if the bytes end inside it. -/
  length : Option Nat
deriving DecidableEq, Repr

/-- The flaw of bytes that follow `offset` others, of which the last belong to the unfinished
character of `s`. -/
def checkFrom (offset : Nat) : State → List UInt8 → Option Flaw
  | none, [] => none
  | some p, [] => some ⟨offset - p.seen, none⟩
  | none, b :: rest =>
    match start b with
    | .whole _ => checkFrom (offset + 1) none rest
    | .opens p => checkFrom (offset + 1) (some p) rest
    | .refused => some ⟨offset, some 1⟩
  | some p, b :: rest =>
    if p.low ≤ b.toNat && b.toNat ≤ p.high then
      checkFrom (offset + 1) (step (some p) b).2 rest
    else some ⟨offset - p.seen, some p.seen⟩

/-- The first flaw of bytes that are not UTF-8. -/
def check (bytes : List UInt8) : Option Flaw :=
  checkFrom 0 none bytes

/-- Reads bytes that are UTF-8. -/
def decode? (bytes : List UInt8) : Option Text :=
  match check bytes with
  | none => some (decode bytes)
  | some _ => none

theorem encode_append (a b : Text) : encode (a ++ b) = encode a ++ encode b :=
  List.flatMap_append

theorem foldl_utf8Size (t : Text) (n : Nat) :
    t.foldl (fun n c => n + c.utf8Size) n = n + size t := by
  induction t generalizing n with
  | nil => rfl
  | cons c t ih =>
    have hsize : size (c :: t) = 0 + c.utf8Size + size t := ih (0 + c.utf8Size)
    rw [List.foldl_cons, ih, hsize]
    omega

theorem size_cons (c : Char) (t : Text) : size (c :: t) = c.utf8Size + size t := by
  rw [size, List.foldl_cons, foldl_utf8Size, Nat.zero_add]

/-- The size of a text is the number of its bytes. -/
theorem length_encode (t : Text) : (encode t).length = size t := by
  induction t with
  | nil => rfl
  | cons c t ih =>
    rw [size_cons, ← ih, ← String.length_utf8EncodeChar]
    exact List.length_append

theorem runFrom_eq (written : Text) (s : State) (bytes : List UInt8) :
    runFrom written s bytes = ((run s bytes).1.reverse ++ written, (run s bytes).2) := by
  suffices h : ∀ (bytes : List UInt8) (written : Text) (s : State),
      runFrom written s bytes =
        ((runFrom [] s bytes).1 ++ written, (runFrom [] s bytes).2) by
    rw [h]; simp [run]
  intro bytes
  induction bytes with
  | nil => intros; rfl
  | cons b rest ih =>
    intro written s
    have step1 (w : Text) : runFrom w s (b :: rest) =
        runFrom ((step s b).1.reverse ++ w) (step s b).2 rest := rfl
    rw [step1, step1, ih, ih ((step s b).1.reverse ++ [])]
    simp

@[simp] theorem run_nil (s : State) : run s [] = ([], s) := rfl

theorem run_cons (s : State) (b : UInt8) (rest : List UInt8) :
    run s (b :: rest) = ((step s b).1 ++ (run (step s b).2 rest).1, (run (step s b).2 rest).2) := by
  have h : run s (b :: rest) =
      ((runFrom (step s b).1.reverse (step s b).2 rest).1.reverse,
        (runFrom (step s b).1.reverse (step s b).2 rest).2) := by
    simp [run, runFrom]
  rw [h, runFrom_eq]; simp

theorem run_append (s : State) (a b : List UInt8) :
    run s (a ++ b) = ((run s a).1 ++ (run (run s a).2 b).1, (run (run s a).2 b).2) := by
  induction a generalizing s with
  | nil => simp
  | cons x a ih => simp [run_cons, ih]

end BuildStep.Utf8
