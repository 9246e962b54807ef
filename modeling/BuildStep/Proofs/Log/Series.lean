import BuildStep.Proofs.Log.Faults
import Mathlib.Data.List.DropRight
import Mathlib.Data.List.Infix

/-!
# Logs that are opened one after the other

A log is opened, written to, finalized or given up, and opened again at the same path, with or
without a marker.  Whatever the order, the file holds the texts of all these logs one after the
other, each of them as far as it was flushed, and the marker is there for as long as a log that was
opened with one is being written.

Each log is described by what was done with it, in order.  What counts are the uses up to the first
that closes it: the text up to the last flush among these was flushed, or all of it if the log was
finalized.

## Key results

- `Session.flushed_append_unflushed`: text is lost only behind the last flush
- `Stands.use`, `Reached.new`: what a use of a log, and opening one, do to file and marker
- `reached_after`: so what is on the disk is told by what was done
- `series_of_steps`: the file, the marker and the log after any steps
-/

namespace BuildStep

namespace LogSeries

open FileLog (markerPath)
open Disk (Holds Keeps)

/-! ## What may be done -/

/-- What may be done with a log that was opened. -/
inductive Use
  | call (c : LogCall)
  /-- The log is given up. -/
  | drop
deriving DecidableEq, Repr

/-- What may be done at a path: a log is opened, for which the one before is given up, or the log
that was opened last is used. -/
inductive Step
  | new (a : Attachment) (since : Text) (withMarker : Bool)
  | use (u : Use)
deriving DecidableEq, Repr

/-- A log that takes nothing. -/
def closed (path : Text) : FileLog :=
  ⟨path, none, none, false⟩

/-- An empty directory, and no log. -/
def start (path : Text) : DiskLog :=
  ⟨.empty, closed path, []⟩

/-- One step on the disk and the log that was opened last. -/
def step (path : Text) (d : DiskLog) : Step → Except IoError Unit × DiskLog
  | .new a since withMarker =>
    match FileLog.openOn d.drop.disk path a since withMarker with
    | (.ok log, disk) => (.ok (), ⟨disk, log, d.faults⟩)
    | (.error e, disk) => (.error e, ⟨disk, d.drop.log, d.faults⟩)
  | .use (.call c) => c.perform d
  | .use .drop => (.ok (), d.drop)

/-- The disk and the log after some steps. -/
def after (path : Text) (steps : List Step) : DiskLog :=
  steps.foldl (fun d s => (step path d s).2) (start path)

theorem after_concat (path : Text) (steps : List Step) (s : Step) :
    after path (steps ++ [s]) = (step path (after path steps) s).2 := by
  rw [after, List.foldl_concat]
  rfl

/-! ## What was done with one log -/

namespace Use

/-- The log takes nothing after this. -/
def closes : Use → Bool
  | .call .finalize => true
  | .drop => true
  | _ => false

def isFlush : Use → Bool
  | .call .flush => true
  | _ => false

/-- The text that is appended. -/
def text : Use → Text
  | .call c => c.text
  | .drop => []

end Use

/-- A log from when it was opened on, and what was done with it, in order. -/
structure Session where
  withMarker : Bool
  uses : List Use
deriving DecidableEq, Repr

namespace Session

/-- It was neither finalized nor given up. -/
def isOpen (s : Session) : Bool :=
  !s.uses.any Use.closes

/-- It was finalized, and not given up before that. -/
def isFinalized (s : Session) : Bool :=
  s.uses.find? Use.closes = some (.call .finalize)

/-- What was done before it was finalized or given up. -/
def accepted (s : Session) : List Use :=
  s.uses.takeWhile fun u => !u.closes

/-- The text that was appended up to the last flush, or until the log was finalized. -/
def flushed (s : Session) : Text :=
  (if s.isFinalized then s.accepted else s.accepted.rdropWhile fun u => !u.isFlush).flatMap Use.text

/-- The text that was appended after that. -/
def unflushed (s : Session) : Text :=
  (if s.isFinalized then [] else s.accepted.rtakeWhile fun u => !u.isFlush).flatMap Use.text

/-- One more thing is done. -/
def use (s : Session) (u : Use) : Session :=
  { s with uses := s.uses ++ [u] }

theorem flushed_append_unflushed (s : Session) :
    s.flushed ++ s.unflushed = s.accepted.flatMap Use.text := by
  rw [flushed, unflushed, ← List.flatMap_append]
  split
  · rw [List.append_nil]
  · rw [List.rdropWhile_append_rtakeWhile]

theorem isOpen_use (s : Session) (u : Use) : (s.use u).isOpen = (s.isOpen && !u.closes) := by
  simp [isOpen, use, List.any_append]

section Closed

variable {s : Session} (h : s.isOpen = false)
include h

theorem accepted_use_of_closed (u : Use) : (s.use u).accepted = s.accepted := by
  have hany : ¬∀ v ∈ s.uses, (!v.closes) = true := by
    simpa [isOpen] using h
  rw [accepted, accepted, use, List.takeWhile_append, if_neg]
  intro hlength
  have hall := (List.takeWhile_prefix _).eq_of_length hlength
  exact hany (List.takeWhile_eq_self_iff.mp hall)

theorem isFinalized_use_of_closed (u : Use) : (s.use u).isFinalized = s.isFinalized := by
  have hfound : (s.uses.find? Use.closes).isSome = true := by
    simpa [isOpen, List.find?_isSome] using h
  rw [isFinalized, isFinalized, use, List.find?_append, Option.or_of_isSome hfound]

theorem flushed_use_of_closed (u : Use) : (s.use u).flushed = s.flushed := by
  rw [flushed, flushed, accepted_use_of_closed h, isFinalized_use_of_closed h]

end Closed

section Open

variable {s : Session} (h : s.isOpen = true)
include h

theorem not_closes_of_mem {u : Use} (hu : u ∈ s.uses) : (!u.closes) = true := by
  simp only [isOpen, Bool.not_eq_true', List.any_eq_false] at h
  simpa using h u hu

theorem find?_closes_of_open : s.uses.find? Use.closes = none := by
  rw [List.find?_eq_none]
  intro u hu
  simpa using not_closes_of_mem h hu

theorem isFinalized_of_open : s.isFinalized = false := by
  rw [isFinalized, find?_closes_of_open h]
  rfl

theorem isFinalized_use_of_open (u : Use) :
    (s.use u).isFinalized = decide (u = .call .finalize) := by
  rw [isFinalized, use, List.find?_append, find?_closes_of_open h, Option.none_or,
    List.find?_singleton]
  cases u with
  | drop => rfl
  | call c => cases c <;> rfl

theorem accepted_of_open : s.accepted = s.uses :=
  List.takeWhile_eq_self_iff.mpr fun _ hu => not_closes_of_mem h hu

/-- A use that closes the log is none of those that count. -/
theorem accepted_use_of_open (u : Use) :
    (s.use u).accepted = if u.closes then s.accepted else s.accepted ++ [u] := by
  rw [accepted_of_open h, accepted, use,
    List.takeWhile_append_of_pos fun _ hv => not_closes_of_mem h hv]
  cases hcloses : u.closes with
  | true => rw [List.takeWhile_cons_of_neg (by simp [hcloses]), List.append_nil]; rfl
  | false => rw [List.takeWhile_cons_of_pos (by simp [hcloses])]; rfl

/-- Text that is appended waits for a flush. -/
theorem use_append (t : Text) :
    (s.use (.call (.append t))).flushed = s.flushed ∧
      (s.use (.call (.append t))).unflushed = s.unflushed ++ t := by
  have haccepted : (s.use (.call (.append t))).accepted = s.accepted ++ [.call (.append t)] :=
    accepted_use_of_open h _
  simp only [flushed, unflushed, isFinalized_use_of_open h, isFinalized_of_open h, haccepted]
  constructor
  · rw [List.rdropWhile_concat_pos _ _ _ rfl]
    rfl
  · rw [List.rtakeWhile_concat_pos _ _ _ rfl]
    simp [Use.text, LogCall.text]

/-- A flush flushes what waits for it, and so does what finalizes the log. -/
theorem use_flush :
    (s.use (.call .flush)).flushed = s.flushed ++ s.unflushed ∧
      (s.use (.call .flush)).unflushed = [] := by
  have haccepted : (s.use (.call .flush)).accepted = s.accepted ++ [.call .flush] :=
    accepted_use_of_open h _
  rw [flushed_append_unflushed]
  simp only [flushed, unflushed, isFinalized_use_of_open h, haccepted]
  constructor
  · rw [if_neg (by decide), List.rdropWhile_concat_neg _ _ _ (by decide)]
    simp [Use.text, LogCall.text]
  · rw [if_neg (by decide), List.rtakeWhile_concat_neg _ _ _ (by decide)]
    rfl

theorem use_finalize : (s.use (.call .finalize)).flushed = s.flushed ++ s.unflushed := by
  have haccepted : (s.use (.call .finalize)).accepted = s.accepted := accepted_use_of_open h _
  rw [flushed_append_unflushed, flushed, isFinalized_use_of_open h, haccepted]
  rfl

/-- What waits for a flush when the log is given up is lost. -/
theorem use_drop : (s.use .drop).flushed = s.flushed := by
  have haccepted : (s.use .drop).accepted = s.accepted := accepted_use_of_open h _
  rw [flushed, isFinalized_use_of_open h, haccepted, flushed, isFinalized_of_open h]
  rfl

end Open

/-- What was flushed stays flushed. -/
theorem flushed_prefix_use (s : Session) (u : Use) : s.flushed <+: (s.use u).flushed := by
  cases hopen : s.isOpen with
  | false => rw [flushed_use_of_closed hopen]
  | true =>
    cases u with
    | drop => rw [use_drop hopen]
    | call c =>
      cases c with
      | append t => rw [(use_append hopen t).1]
      | flush =>
        rw [(use_flush hopen).1]
        exact List.prefix_append _ _
      | finalize =>
        rw [use_finalize hopen]
        exact List.prefix_append _ _

end Session

/-! ## What was done at a path -/

/-- The logs so far, last to first, after one more step. -/
def record (logs : List Session) : Step → List Session
  | .new _ _ withMarker => ⟨withMarker, []⟩ :: logs
  | .use u =>
    match logs with
    | [] => []
    | current :: earlier => current.use u :: earlier

/-- The logs that some steps open, last to first. -/
def history (steps : List Step) : List Session :=
  steps.foldl record []

theorem history_concat (steps : List Step) (s : Step) :
    history (steps ++ [s]) = record (history steps) s :=
  List.foldl_concat _ _ _ _

/-- The texts of some logs, given last to first, as far as they were flushed. -/
def contents (logs : List Session) : Text :=
  logs.reverse.flatMap Session.flushed

theorem contents_cons (current : Session) (earlier : List Session) :
    contents (current :: earlier) = contents earlier ++ current.flushed := by
  simp [contents]

theorem contents_prefix_record (logs : List Session) (s : Step) :
    contents logs <+: contents (record logs s) := by
  cases s with
  | new a since withMarker =>
    rw [record, contents_cons]
    exact List.prefix_append _ _
  | use u =>
    cases logs with
    | nil => exact List.prefix_refl _
    | cons current earlier =>
      rw [record, contents_cons, contents_cons, List.prefix_append_right_inj]
      exact current.flushed_prefix_use u

theorem contents_history_mono {before steps : List Step} (h : before <+: steps) :
    contents (history before) <+: contents (history steps) := by
  obtain ⟨more, rfl⟩ := h
  induction more using List.reverseRecOn with
  | nil => rw [List.append_nil]
  | append_singleton more s ih =>
    rw [← List.append_assoc, history_concat]
    exact ih.trans (contents_prefix_record _ s)

/-! ## The file and its marker -/

/-- A path that leads to the same place on every disk, where nothing has to be, and likewise the
path of the marker beside it if that leads anywhere. -/
structure Located (path : Text) (names : List Text) : Prop where
  leads : ∀ d : Disk, d.resolve path = .ok ⟨names, false⟩
  same : ∀ d d' : Disk, d.resolve (markerPath path) = d'.resolve (markerPath path)
  apart : ∀ d location, Disk.resolve d (markerPath path) = .ok location →
    location.names ≠ names ∧ location.asDirectory = false
  nothing : Disk.empty.node? names = none
  noMarker : Disk.empty.isThere (markerPath path) = false

theorem located_of_target {path : Text} {names : List Text} {file? : Option (Nat × List UInt8)}
    (h : Disk.empty.target path = .ok (names, file?)) : Located path names := by
  obtain ⟨hleads, hnode, -⟩ := Disk.target_eq_ok h
  have hmarker := fun d => Disk.resolve_markerPath_of_keeps (Disk.keeps_empty d) hleads hnode rfl
  refine ⟨fun d => ?_, fun d d' => (hmarker d).trans (hmarker d').symm, fun d location h' => ?_, ?_,
    Disk.isThere_markerPath_empty hleads hnode rfl⟩
  · exact Disk.resolve_of_keeps (Disk.keeps_empty d) hleads hnode rfl
  · exact Disk.markerPath_ne (Disk.keeps_empty d) hleads hnode rfl h'
  · rw [Disk.node?] at hnode ⊢
    split
    · rename_i haround
      exact absurd (if_pos haround) hnode
    · rfl

/-- A path is one of this kind if a log can be opened there where nothing is. -/
theorem located_of_openOn {path : Text} {a : Attachment} {since : Text} {withMarker : Bool}
    {log : FileLog} (h : (FileLog.openOn .empty path a since withMarker).1 = .ok log) :
    ∃ names, Located path names ∧ (withMarker = true →
      ∀ d : Disk, ∃ location, d.resolve (markerPath path) = .ok location) := by
  unfold FileLog.openOn at h
  split at h
  · cases h
  · rename_i serial disk hopen
    rw [Disk.openAppend] at hopen
    cases htarget : Disk.empty.target path with
    | error e =>
      rw [htarget] at hopen
      cases hopen
    | ok found =>
      obtain ⟨names, file?⟩ := found
      have hlocated := located_of_target htarget
      refine ⟨names, hlocated, ?_⟩
      rintro rfl d
      rw [if_pos rfl] at h
      split at h
      · cases h
      · rename_i disk' hwrite
        obtain ⟨beside, other, hleads, -⟩ := Disk.write_eq_ok hwrite
        exact ⟨_, (hlocated.same d disk).trans hleads⟩

variable {path : Text} {names : List Text} {disk disk' : Disk} {serial : Nat}
  {content : List UInt8}

/-- What is done to no other entry than that of the log leaves the marker there, or away. -/
theorem Located.isThere_congr (h : Located path names)
    (hothers : ∀ other ≠ names, (disk'.node? other).isSome = (disk.node? other).isSome) :
    disk'.isThere (markerPath path) = disk.isThere (markerPath path) := by
  have hsame := h.same disk' disk
  cases hmarker : disk.resolve (markerPath path) with
  | error e =>
    rw [hmarker] at hsame
    simp [Disk.isThere, Disk.get, hsame, hmarker, bind, Except.bind]
  | ok location =>
    obtain ⟨beside, asDirectory⟩ := location
    obtain ⟨hne, rfl⟩ := h.apart disk _ hmarker
    rw [hmarker] at hsame
    rw [Disk.isThere_of_resolve hsame, Disk.isThere_of_resolve hmarker]
    exact hothers beside hne

theorem Located.isThere_appendTo (h : Located path names) (disk : Disk) (serial : Nat)
    (bytes : List UInt8) :
    (disk.appendTo serial bytes).isThere (markerPath path) = disk.isThere (markerPath path) := by
  refine h.isThere_congr fun other _ => ?_
  rw [Disk.node?_appendTo, Option.isSome_map]

/-- There is a marker, or there is none. -/
def HasMarker (path : Text) (disk : Disk) : Bool → Prop
  | true => ∃ beside serial content, disk.Holds (markerPath path) beside serial content
  | false => disk.isThere (markerPath path) = false

theorem HasMarker.isThere_eq {there : Bool} (h : HasMarker path disk there) :
    disk.isThere (markerPath path) = there := by
  cases there with
  | false => exact h
  | true =>
    obtain ⟨beside, serial, content, hholds⟩ := h
    rw [Disk.isThere_of_resolve hholds.leads, hholds.node]
    rfl

theorem HasMarker.appendTo {there : Bool} (hlocated : Located path names)
    (h : HasMarker path disk there) (serial : Nat) (bytes : List UInt8) :
    HasMarker path (disk.appendTo serial bytes) there := by
  cases there with
  | false => exact (hlocated.isThere_appendTo disk serial bytes).trans h
  | true =>
    obtain ⟨beside, other, content, hholds⟩ := h
    obtain ⟨content', hholds'⟩ := hholds.exists_appendTo serial bytes
    exact ⟨beside, other, content', hholds'⟩

/-- A marker is removed if there is one, and the log stays as it is. -/
theorem holds_withoutMarker (hlocated : Located path names) {there : Bool}
    (hfile : disk.Holds path names serial content) (hmarker : HasMarker path disk there)
    (writer : Option FileLog.Writer) :
    let d : DiskLog :=
      ⟨disk, ⟨path, if there then some (markerPath path) else none, writer, true⟩, []⟩
    d.withoutMarker.Holds path names serial content ∧ HasMarker path d.withoutMarker false := by
  intro d
  cases there with
  | false => exact ⟨hfile, hmarker⟩
  | true =>
    obtain ⟨beside, other, text, hholds⟩ := hmarker
    have hremoved : d.withoutMarker = disk.delete beside := by
      simp only [d, DiskLog.withoutMarker, if_true, hholds.remove]
    have hne : beside ≠ names := (hlocated.apart disk _ hholds.leads).1
    rw [hremoved]
    refine ⟨hfile.of_keeps (Disk.keeps_delete hholds.not_directory)
      (Disk.node?_delete_of_ne hne.symm disk), ?_⟩
    show (disk.delete beside).isThere (markerPath path) = false
    rw [Disk.isThere_of_resolve ((hlocated.same _ disk).trans hholds.leads),
      Disk.node?_delete_self hholds.not_directory]
    rfl

/-! ## Uses of a log -/

/-- The file of the logs so far and the marker of the last are as they should be, and so is this log
itself: what was not flushed waits in its buffer, or it is closed. -/
inductive Stands (path : Text) (names : List Text) (current : Session) (earlier : List Session) :
    DiskLog → Prop
  | unclosed {disk : Disk} {serial : Nat} (isOpen : current.isOpen = true)
    (file : disk.Holds path names serial (Utf8.encode (contents (current :: earlier))))
    (marker : HasMarker path disk current.withMarker) :
    Stands path names current earlier
      ⟨disk, ⟨path, if current.withMarker then some (markerPath path) else none,
        some ⟨serial, Utf8.encode current.unflushed⟩, true⟩, []⟩
  | closed {disk : Disk} {serial : Nat} (isOpen : current.isOpen = false)
    (file : disk.Holds path names serial (Utf8.encode (contents (current :: earlier))))
    (marker : HasMarker path disk false) :
    Stands path names current earlier ⟨disk, closed path, []⟩

variable {d : DiskLog} {current : Session} {earlier : List Session}

/-- Text that fits into the buffer stays there. -/
theorem append_of_room {pending : List UInt8} {t : Text}
    (hroom : pending.length + (Utf8.encode t).length < FileLog.capacity) (disk : Disk)
    (marker : Option Text) (serial : Nat) :
    step path ⟨disk, ⟨path, marker, some ⟨serial, pending⟩, true⟩, []⟩ (.use (.call (.append t))) =
      (.ok (), ⟨disk, ⟨path, marker, some ⟨serial, pending ++ Utf8.encode t⟩, true⟩, []⟩) := by
  have hfull : ¬FileLog.capacity < pending.length + (Utf8.encode t).length := by omega
  have hlong : ¬FileLog.capacity ≤ (Utf8.encode t).length := by omega
  simp only [step, LogCall.perform, LogSink.append, DiskLog.append, if_neg hfull,
    DiskLog.addBytes, if_neg hlong]
  rfl

theorem Stands.faults (h : Stands path names current earlier d) : d.faults = [] := by
  cases h with
  | unclosed => rfl
  | closed => rfl

/-- Nothing is done to a log that is closed. -/
theorem use_of_closed (path : Text) (disk : Disk) (u : Use) :
    (step path ⟨disk, closed path, []⟩ (.use u)).2 = ⟨disk, closed path, []⟩ := by
  cases u with
  | drop => rfl
  | call c => cases c <;> rfl

/-- A log is used as its history has it, as long as what is not flushed fits into the buffer. -/
theorem Stands.use (h : Stands path names current earlier d) (hlocated : Located path names)
    (u : Use) (hfits : (Utf8.encode (current.use u).unflushed).length < FileLog.capacity) :
    Stands path names (current.use u) earlier (step path d (.use u)).2 := by
  have hopen' := current.isOpen_use u
  cases h with
  | closed hopen hfile hmarker =>
    rw [hopen] at hopen'
    rw [use_of_closed]
    rw [contents_cons, ← Session.flushed_use_of_closed hopen u, ← contents_cons] at hfile
    exact .closed hopen' hfile hmarker
  | @unclosed disk serial hopen hfile hmarker =>
    rw [hopen, Bool.true_and] at hopen'
    -- the file as it is, and with what waits in the buffer
    have hkept : (current.use u).flushed = current.flushed →
        disk.Holds path names serial (Utf8.encode (contents (current.use u :: earlier))) := by
      intro hflushed
      rw [contents_cons, hflushed, ← contents_cons]
      exact hfile
    have hwritten : (current.use u).flushed = current.flushed ++ current.unflushed →
        (disk.appendTo serial (Utf8.encode current.unflushed)).Holds path names serial
          (Utf8.encode (contents (current.use u :: earlier))) := by
      intro hflushed
      rw [contents_cons, hflushed, ← List.append_assoc, ← contents_cons, Utf8.encode_append]
      exact hfile.appendTo _
    have hmarker' := hmarker.appendTo hlocated serial (Utf8.encode current.unflushed)
    cases u with
    | drop =>
      have hfile' := hkept (Session.use_drop hopen)
      obtain ⟨hlog, hgone⟩ := holds_withoutMarker hlocated hfile' hmarker _
      exact .closed hopen' hlog hgone
    | call c =>
      cases c with
      | append t =>
        obtain ⟨hflushed, hunflushed⟩ := Session.use_append hopen t
        rw [hunflushed, Utf8.encode_append, List.length_append] at hfits
        have hstands := Stands.unclosed hopen' (hkept hflushed) hmarker
        rw [hunflushed, Utf8.encode_append] at hstands
        rw [append_of_room hfits]
        exact hstands
      | flush =>
        obtain ⟨hflushed, hunflushed⟩ := Session.use_flush hopen
        have hstands := Stands.unclosed hopen' (hwritten hflushed) hmarker'
        rw [hunflushed] at hstands
        exact hstands
      | finalize =>
        have hfile' := hwritten (Session.use_finalize hopen)
        obtain ⟨hlog, hgone⟩ := holds_withoutMarker hlocated hfile' hmarker' _
        exact .closed hopen' hlog hgone

/-! ## Opening a log -/

/-- The file of a log is made, or is opened as it is; a marker that is not there is written. -/
theorem openOn_eq_ok (hlocated : Located path names)
    (hfile : disk.node? names = none ∧ content = [] ∨
      ∃ serial, disk.node? names = some (.file serial content))
    (hmarker : HasMarker path disk false) {withMarker : Bool}
    (hbeside : withMarker = true → ∃ location, disk.resolve (markerPath path) = .ok location)
    (a : Attachment) (since : Text) :
    ∃ serial disk', FileLog.openOn disk path a since withMarker =
        (.ok ⟨path, if withMarker then some (markerPath path) else none, some ⟨serial, []⟩, true⟩,
          disk') ∧
      disk'.Holds path names serial content ∧ HasMarker path disk' withMarker := by
  have hopened : ∃ serial disk₁, disk.openAppend path = .ok (serial, disk₁) ∧
      disk₁.Holds path names serial content ∧ HasMarker path disk₁ false := by
    rcases hfile with ⟨hnone, rfl⟩ | ⟨serial, hnode⟩
    · have htarget := Disk.target_of_none (hlocated.leads disk) hnone
      obtain ⟨hholds, -, hothers⟩ := Disk.holds_put (hlocated.leads disk) (by rw [hnone]; simp)
        disk.nextSerial (disk.nextSerial + 1) [] rfl
      refine ⟨_, _, by rw [Disk.openAppend, htarget]; rfl, hholds, ?_⟩
      refine (hlocated.isThere_congr fun other hother => ?_).trans hmarker
      rw [hothers other hother]
    · have hholds : disk.Holds path names serial content := ⟨hlocated.leads disk, hnode⟩
      exact ⟨serial, disk, by rw [Disk.openAppend, hholds.target]; rfl, hholds, hmarker⟩
  obtain ⟨serial, disk₁, hopen, hholds, hnone⟩ := hopened
  simp only [FileLog.openOn, hopen]
  cases withMarker with
  | false => exact ⟨serial, disk₁, rfl, hholds, hnone⟩
  | true =>
    obtain ⟨⟨beside, asDirectory⟩, hleads⟩ := hbeside rfl
    obtain ⟨-, rfl⟩ := hlocated.apart disk _ hleads
    have hleads₁ := (hlocated.same disk₁ disk).trans hleads
    have hfree : disk₁.node? beside = none := by
      have hthere : disk₁.isThere (markerPath path) = false := hnone
      rw [Disk.isThere_of_resolve hleads₁] at hthere
      simpa using hthere
    obtain ⟨disk₂, hwrite⟩ : ∃ disk₂,
        disk₁.write (markerPath path) (FileLog.markerContent a since) = .ok disk₂ := by
      rw [Disk.write, Disk.target_of_none hleads₁ hfree]
      exact ⟨_, rfl⟩
    obtain ⟨beside', other, hleads', hmarked, hkeeps, hothers⟩ := Disk.write_eq_ok hwrite
    have hne : beside' ≠ names := (hlocated.apart disk₁ _ hleads').1
    simp only [if_true, hwrite]
    exact ⟨serial, disk₂, rfl, hholds.of_keeps hkeeps (hothers names hne.symm),
      beside', other, _, hmarked⟩

/-- A log that is given up leaves its file as it is, and takes its marker away. -/
theorem Stands.drop (h : Stands path names current earlier d) (hlocated : Located path names) :
    ∃ serial, d.drop.disk.Holds path names serial (Utf8.encode (contents (current :: earlier))) ∧
      HasMarker path d.drop.disk false := by
  cases h with
  | closed hopen hfile hmarker => exact ⟨_, hfile, hmarker⟩
  | unclosed hopen hfile hmarker => exact ⟨_, holds_withoutMarker hlocated hfile hmarker _⟩

/-! ## All steps -/

/-- What is on the disk is told by the logs so far, given last to first. -/
def Reached (path : Text) (d : DiskLog) : List Session → Prop
  | [] => d = start path
  | current :: earlier => ∃ names, Located path names ∧ Stands path names current earlier d

variable {logs : List Session}

theorem Reached.faults (h : Reached path d logs) : d.faults = [] := by
  cases logs with
  | nil =>
    have hstart : d = start path := h
    rw [hstart]
    rfl
  | cons current earlier =>
    obtain ⟨names, -, hstands⟩ := h
    exact hstands.faults

theorem Reached.new {a : Attachment} {since : Text} {withMarker : Bool} {log : FileLog}
    (h : Reached path d logs)
    (hopen : (FileLog.openOn .empty path a since withMarker).1 = .ok log) :
    (step path d (.new a since withMarker)).1 = .ok () ∧
      Reached path (step path d (.new a since withMarker)).2
        (record logs (.new a since withMarker)) := by
  obtain ⟨names, hlocated, hbeside⟩ := located_of_openOn hopen
  have hready : HasMarker path d.drop.disk false ∧
      (d.drop.disk.node? names = none ∧ Utf8.encode (contents logs) = [] ∨
        ∃ serial, d.drop.disk.node? names = some (.file serial (Utf8.encode (contents logs)))) := by
    cases logs with
    | nil =>
      have hstart : d = start path := h
      rw [hstart]
      exact ⟨hlocated.noMarker, .inl ⟨hlocated.nothing, rfl⟩⟩
    | cons current earlier =>
      obtain ⟨names', hlocated', hstands⟩ := h
      obtain ⟨serial, hfile, hmarker⟩ := hstands.drop hlocated'
      have hsame := (hlocated.leads .empty).symm.trans (hlocated'.leads .empty)
      cases hsame
      exact ⟨hmarker, .inr ⟨serial, hfile.node⟩⟩
  obtain ⟨hmarker, hfile⟩ := hready
  obtain ⟨serial, disk, hopened, hholds, hmarked⟩ :=
    openOn_eq_ok hlocated hfile hmarker (fun hwith => hbeside hwith d.drop.disk) a since
  have hcontents : contents (record logs (.new a since withMarker)) = contents logs := by
    rw [record, contents_cons]
    exact List.append_nil _
  rw [← hcontents] at hholds
  have hstep : step path d (.new a since withMarker) = (.ok (), ⟨disk,
      ⟨path, if withMarker then some (markerPath path) else none, some ⟨serial, []⟩, true⟩, []⟩) := by
    simp only [step, hopened, h.faults]
  rw [hstep]
  exact ⟨rfl, names, hlocated, .unclosed rfl hholds hmarked⟩

theorem Reached.use (h : Reached path d logs) (u : Use)
    (hfits : ∀ current ∈ (record logs (.use u)).head?,
      (Utf8.encode current.unflushed).length < FileLog.capacity) :
    Reached path (step path d (.use u)).2 (record logs (.use u)) := by
  cases logs with
  | nil =>
    have hstart : d = start path := h
    rw [hstart]
    exact use_of_closed path .empty u
  | cons current earlier =>
    obtain ⟨names, hlocated, hstands⟩ := h
    exact ⟨names, hlocated, hstands.use hlocated u (hfits _ rfl)⟩

/-- At every moment what the log that was opened last has not flushed fits into its buffer. -/
def Fits (steps : List Step) : Prop :=
  ∀ before, before <+: steps → ∀ current ∈ (history before).head?,
    (Utf8.encode current.unflushed).length < FileLog.capacity

/-- Wherever the path is opened, it could be opened where nothing is. -/
def Opens (path : Text) (steps : List Step) : Prop :=
  ∀ a since withMarker, Step.new a since withMarker ∈ steps →
    ∃ log, (FileLog.openOn .empty path a since withMarker).1 = .ok log

theorem Fits.of_prefix {before steps : List Step} (h : Fits steps) (hle : before <+: steps) :
    Fits before :=
  fun first hfirst => h first (hfirst.trans hle)

theorem Opens.of_prefix {before steps : List Step} (h : Opens path steps) (hle : before <+: steps) :
    Opens path before :=
  fun a since withMarker hin => h a since withMarker (hle.subset hin)

/-- What is on the disk after any steps is told by what was done. -/
theorem reached_after {steps : List Step} (hopens : Opens path steps) (hfits : Fits steps) :
    Reached path (after path steps) (history steps) := by
  induction steps using List.reverseRecOn with
  | nil => rfl
  | append_singleton steps s ih =>
    have hle := List.prefix_append steps [s]
    have hbefore := ih (hopens.of_prefix hle) (hfits.of_prefix hle)
    rw [after_concat, history_concat]
    cases s with
    | new a since withMarker =>
      obtain ⟨log, hopen⟩ := hopens a since withMarker (by simp)
      exact (hbefore.new hopen).2
    | use u =>
      have hnow := hfits _ (List.prefix_refl _)
      rw [history_concat] at hnow
      exact hbefore.use u hnow

/-! ## What is seen from outside -/

theorem Stands.read (h : Stands path names current earlier d) :
    d.disk.read path = .ok (Utf8.encode (contents (current :: earlier))) := by
  cases h with
  | unclosed _ hfile => exact hfile.read
  | closed _ hfile => exact hfile.read

/-- The marker is there as long as a log that was opened with one is open. -/
theorem Stands.isThere_marker (h : Stands path names current earlier d) :
    d.disk.isThere (markerPath path) = (current.withMarker && current.isOpen) := by
  cases h with
  | unclosed hopen _ hmarker =>
    rw [hopen, Bool.and_true]
    exact hmarker.isThere_eq
  | closed hopen _ hmarker =>
    rw [hopen, Bool.and_false]
    exact hmarker.isThere_eq

theorem Stands.isLive (h : Stands path names current earlier d) :
    LogSink.isLive d = current.isOpen := by
  cases h with
  | unclosed hopen => exact hopen.symm
  | closed hopen => exact hopen.symm

/-- A log that is open does what it is told. -/
theorem Stands.succeeds (h : Stands path names current earlier d) (hopen : current.isOpen = true)
    (u : Use) : (step path d (.use u)).1 = .ok () := by
  have hfaults := h.faults
  cases h with
  | closed hclosed =>
    rw [hopen] at hclosed
    cases hclosed
  | unclosed =>
    cases u with
    | drop => rfl
    | call c =>
      cases c with
      | append t => exact DiskLog.append_of_noFaults (by rfl) hfaults t
      | flush => rfl
      | finalize => rfl

/-- A log that is not open any more refuses text and is not flushed.  That it is finalized again
succeeds and changes nothing. -/
theorem Stands.refuses (h : Stands path names current earlier d) (hopen : current.isOpen = false) :
    (∀ t, ∃ e, step path d (.use (.call (.append t))) = (.error e, d) ∧ e.kind = .brokenPipe) ∧
      (∃ e, step path d (.use (.call .flush)) = (.error e, d) ∧ e.kind = .brokenPipe) ∧
      step path d (.use (.call .finalize)) = (.ok (), d) := by
  cases h with
  | closed => exact ⟨fun _ => ⟨_, rfl, rfl⟩, ⟨_, rfl, rfl⟩, rfl⟩
  | unclosed hunclosed =>
    rw [hopen] at hunclosed
    cases hunclosed

/-- Where `Opens` and `Fits` hold, the file has the `contents` of the `history`, which no step
shortens, and the marker is there while a `Session` with one is open.  The last log takes every
`Use` until it is closed, and refuses text and flushing from then on. -/
theorem series_of_steps {steps : List Step} (hopens : Opens path steps) (hfits : Fits steps) :
    let d := after path steps
    (∀ before a since withMarker, before ++ [.new a since withMarker] <+: steps →
        (step path (after path before) (.new a since withMarker)).1 = .ok ()) ∧
      (history steps = [] → d = start path) ∧
      (∀ s ∈ history steps, s.accepted.flatMap Use.text = s.flushed ++ s.unflushed) ∧
      (∀ before, before <+: steps → contents (history before) <+: contents (history steps)) ∧
      ∀ current earlier, history steps = current :: earlier →
        d.disk.read path = .ok (Utf8.encode (contents (history steps))) ∧
        d.disk.isThere (markerPath path) = (current.withMarker && current.isOpen) ∧
        LogSink.isLive d = current.isOpen ∧
        (current.isOpen = true → ∀ u, (step path d (.use u)).1 = .ok ()) ∧
        (current.isOpen = false →
          (∀ t, ∃ e, step path d (.use (.call (.append t))) = (.error e, d) ∧
            e.kind = .brokenPipe) ∧
          (∃ e, step path d (.use (.call .flush)) = (.error e, d) ∧ e.kind = .brokenPipe) ∧
          step path d (.use (.call .finalize)) = (.ok (), d)) := by
  intro d
  have hreached : Reached path d (history steps) := reached_after hopens hfits
  refine ⟨?_, ?_, ?_, fun before hle => contents_history_mono hle, ?_⟩
  · intro before a since withMarker hle
    have hle' := (List.prefix_append before [.new a since withMarker]).trans hle
    have hbefore := reached_after (hopens.of_prefix hle') (hfits.of_prefix hle')
    obtain ⟨log, hopen⟩ := hopens a since withMarker (hle.subset (by simp))
    exact (hbefore.new hopen).1
  · intro hnone
    rw [hnone] at hreached
    exact hreached
  · exact fun s _ => s.flushed_append_unflushed.symm
  · intro current earlier hlogs
    rw [hlogs] at hreached ⊢
    obtain ⟨names, -, hstands⟩ := hreached
    exact ⟨hstands.read, hstands.isThere_marker, hstands.isLive, hstands.succeeds,
      hstands.refuses⟩

/-- A log with a marker is given up for another without one before its last text is flushed.  The
other is finalized, and refuses text after that. -/
theorem series_of_steps_of_lost_text :
    let path : Text := "log".toList
    let steps : List Step := [.new ⟨1⟩ [] true, .use (.call (.append ['a'])), .use (.call .flush),
      .use (.call (.append ['b'])), .new ⟨2⟩ [] false, .use (.call (.append ['c'])),
      .use (.call .finalize), .use (.call (.append ['d']))]
    let d := after path steps
    d.disk.read path = .ok [97, 99] ∧ d.disk.isThere (markerPath path) = false ∧
      LogSink.isLive d = false ∧
      ∃ e, step path d (.use (.call .flush)) = (.error e, d) ∧ e.kind = .brokenPipe := by
  intro path steps d
  have hopens : Opens path steps := by
    intro a since withMarker hin
    simp only [steps, List.mem_cons, List.not_mem_nil, or_false, reduceCtorEq, false_or,
      Step.new.injEq] at hin
    rcases hin with ⟨rfl, rfl, rfl⟩ | ⟨rfl, rfl, rfl⟩
    · exact ⟨_, rfl⟩
    · exact ⟨_, rfl⟩
  have hfits : Fits steps := by
    intro before hle
    have hall : ∀ n ≤ steps.length, ∀ current ∈ (history (steps.take n)).head?,
      (Utf8.encode current.unflushed).length < FileLog.capacity := by decide +kernel
    rw [List.prefix_iff_eq_take.mp hle]
    exact hall before.length hle.length_le
  have hlogs : history steps = [⟨false, [.call (.append ['c']), .call .finalize,
      .call (.append ['d'])]⟩, ⟨true, [.call (.append ['a']), .call .flush,
      .call (.append ['b'])]⟩] := rfl
  obtain ⟨-, -, -, -, hlast⟩ := series_of_steps hopens hfits
  -- with the name there is nothing to evaluate in the terms that are compared
  rw [show after path steps = d from rfl] at hlast
  obtain ⟨hread, hmarker, hlive, -, hrefuses⟩ := hlast _ _ hlogs
  have hopen : Session.isOpen ⟨false, [.call (.append ['c']), .call .finalize,
      .call (.append ['d'])]⟩ = false := rfl
  have hcontents : Utf8.encode (contents (history steps)) = [97, 99] := by decide +kernel
  rw [hcontents] at hread
  rw [hopen] at hlive
  exact ⟨hread, hmarker, hlive, (hrefuses hopen).2.1⟩

end LogSeries

end BuildStep
