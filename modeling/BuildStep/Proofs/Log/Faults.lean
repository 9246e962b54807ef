import BuildStep.Proofs.Log.Paths

/-!
# Writes that fail

A call on a `DiskLog` meets the faults of its file one after the other.  Whatever it meets, it
writes to no other file and only at the end of this one, and the log stays open.
`DiskLog.finalize` closes the log even if it cannot write its buffer.

## Key results

- `DiskLog.wrote_append`, `DiskLog.wrote_flush`: what a call does to the file and the log
- `DiskLog.finalize_of_open`: finalizing answers as `DiskLog.flush` does, and closes the log
- `DiskLog.append_of_noFaults`: an append succeeds where no fault is ahead
- `Disk.Marked.finalize`: finalizing leaves no marker
-/

namespace BuildStep

open FileLog (markerPath)

namespace Disk

/-- The second disk is the first after some writes to the end of a file. -/
inductive Written (serial : Nat) (d : Disk) : Disk → Prop
  | nothing : Written serial d d
  | more {d' : Disk} (h : Written serial d d') (bytes : List UInt8) :
      Written serial d (d'.appendTo serial bytes)

variable {path : Text} {names beside : List Text} {serial : Nat} {d d' d'' : Disk}

theorem Written.trans (h : Written serial d d') (h' : Written serial d' d'') :
    Written serial d d'' := by
  induction h' with
  | nothing => exact h
  | more _ bytes ih => exact ih.more bytes

/-- A log and its marker, both of which are there. -/
structure Marked (path : Text) (names beside : List Text) (serial : Nat) (d : Disk) : Prop where
  log : ∃ content, d.Holds path names serial content
  marker : ∃ other content, d.Holds (markerPath path) beside other content
  apart : beside ≠ names

/-- Writes to the log leave the marker there. -/
theorem Marked.written (h : Marked path names beside serial d) (hwritten : Written serial d d') :
    Marked path names beside serial d' := by
  induction hwritten with
  | nothing => exact h
  | more _ bytes ih =>
    obtain ⟨⟨content, hlog⟩, ⟨other, text, hmarker⟩, hapart⟩ := ih
    obtain ⟨text', hmarker⟩ := hmarker.exists_appendTo serial bytes
    exact ⟨⟨content ++ bytes, hlog.appendTo bytes⟩, ⟨other, text', hmarker⟩, hapart⟩

/-- A file that is written to grows. -/
theorem Marked.read_written (h : Marked path names beside serial d)
    (hwritten : Written serial d d') {content : List UInt8} (hread : d.read path = .ok content) :
    ∃ more, d'.read path = .ok (content ++ more) := by
  induction hwritten with
  | nothing =>
    refine ⟨[], ?_⟩
    rw [List.append_nil]
    exact hread
  | more hwritten bytes ih =>
    obtain ⟨more, ih⟩ := ih
    obtain ⟨content', hlog⟩ := (h.written hwritten).log
    rw [hlog.read] at ih
    cases ih
    refine ⟨more ++ bytes, ?_⟩
    rw [← List.append_assoc]
    exact (hlog.appendTo bytes).read

end Disk

namespace DiskLog

open Disk (Written Marked)

/-- More is at the end of the file, and there may be something else in the buffer. -/
def Wrote (serial : Nat) (d d' : DiskLog) : Prop :=
  Written serial d.disk d'.disk ∧
    ∃ pending, d'.log = { d.log with writer := some ⟨serial, pending⟩ }

variable {d d' d'' : DiskLog} {w : FileLog.Writer} {serial : Nat}

theorem Wrote.trans (h : Wrote serial d d') (h' : Wrote serial d' d'') : Wrote serial d d'' := by
  obtain ⟨hwritten, pending, hlog⟩ := h
  obtain ⟨hwritten', pending', hlog'⟩ := h'
  refine ⟨hwritten.trans hwritten', pending', ?_⟩
  rw [hlog', hlog]

/-- A write that fails may have written some of its bytes. -/
theorem written_write (d : DiskLog) (serial : Nat) (bytes : List UInt8) :
    Written serial d.disk (d.write serial bytes).2.2.disk ∧
      (d.write serial bytes).2.2.log = d.log := by
  unfold write
  split
  · exact ⟨.more .nothing _, rfl⟩
  · exact ⟨.more .nothing _, rfl⟩

theorem wrote_writeBuffer (d : DiskLog) (w : FileLog.Writer) :
    Wrote w.serial d (d.writeBuffer w).2 := by
  obtain ⟨hwritten, hlog⟩ := d.written_write w.serial w.pending
  refine ⟨hwritten, (d.write w.serial w.pending).2.1, ?_⟩
  simp only [writeBuffer, withWriter, hlog]

theorem wrote_addBytes (d : DiskLog) (w : FileLog.Writer) (bytes : List UInt8) :
    Wrote w.serial d (d.addBytes w bytes).2 := by
  unfold addBytes
  split
  · -- the bytes go past the buffer
    obtain ⟨hwritten, hlog⟩ := d.written_write w.serial bytes
    refine ⟨hwritten, w.pending, ?_⟩
    simp only [withWriter, hlog]
  · exact ⟨.nothing, w.pending ++ bytes, rfl⟩

theorem wrote_append (h : d.log.writer = some w) (t : Text) :
    Wrote w.serial d (d.append t).2 := by
  simp only [append, h]
  split
  · -- the buffer is written first, and if that fails nothing is added
    have hbuffer := d.wrote_writeBuffer w
    split
    · rename_i heq
      rw [heq] at hbuffer
      exact hbuffer
    · rename_i heq
      rw [heq] at hbuffer
      exact hbuffer.trans (wrote_addBytes _ ⟨w.serial, []⟩ (Utf8.encode t))
  · exact d.wrote_addBytes w _

theorem wrote_flush (h : d.log.writer = some w) : Wrote w.serial d d.flush.2 := by
  simp only [flush, h]
  exact d.wrote_writeBuffer w

/-- Whether or not the buffer can be written, the log is closed; what came of it is the answer. -/
theorem finalize_of_open (h : d.log.writer = some w) :
    d.finalize = (d.flush.1, d.flush.2.closed) := by
  simp only [finalize, flush, h]

/-- A write succeeds where no fault is ahead. -/
theorem write_of_noFaults (h : d.faults = []) (serial : Nat) (bytes : List UInt8) :
    d.write serial bytes = (.ok (), [], { d with disk := d.disk.appendTo serial bytes }) := by
  obtain ⟨disk, log, faults⟩ := d
  cases h
  rfl

theorem writeBuffer_of_noFaults (h : d.faults = []) (w : FileLog.Writer) :
    (d.writeBuffer w).1 = .ok () ∧ (d.writeBuffer w).2.faults = [] := by
  rw [writeBuffer, write_of_noFaults h]
  exact ⟨rfl, h⟩

theorem addBytes_of_noFaults (h : d.faults = []) (w : FileLog.Writer) (bytes : List UInt8) :
    (d.addBytes w bytes).1 = .ok () := by
  unfold addBytes
  split
  · simp only [write_of_noFaults h]
  · rfl

/-- So an open log takes any text. -/
theorem append_of_noFaults (hwriter : d.log.writer = some w) (h : d.faults = []) (t : Text) :
    (d.append t).1 = .ok () := by
  obtain ⟨hwritten, hfaults⟩ := writeBuffer_of_noFaults h w
  simp only [append, hwriter]
  split
  · rw [show d.writeBuffer w = (.ok (), (d.writeBuffer w).2) from Prod.ext hwritten rfl]
    exact addBytes_of_noFaults hfaults _ _
  · exact addBytes_of_noFaults h _ _

end DiskLog

/-- `DiskLog.finalize` ends liveness and removes the marker even if its flush fails, and then answers
as the flush did. -/
theorem Disk.Marked.finalize {path : Text} {names beside : List Text} {d : DiskLog}
    {w : FileLog.Writer} (h : Marked path names beside w.serial d.disk)
    (hmarker : d.log.marker = some (markerPath path)) (hwriter : d.log.writer = some w) :
    d.finalize.1 = d.flush.1 ∧ d.finalize.2.log.live = false ∧
      d.finalize.2.disk.isThere (markerPath path) = false := by
  obtain ⟨hwritten, pending, hlog⟩ := DiskLog.wrote_flush hwriter
  obtain ⟨-, ⟨other, content, hholds⟩, -⟩ := h.written hwritten
  rw [DiskLog.finalize_of_open hwriter]
  refine ⟨rfl, rfl, ?_⟩
  have hremoved : d.flush.2.closed.disk = d.flush.2.disk.delete beside := by
    simp only [DiskLog.closed, DiskLog.withoutMarker, hlog, hmarker, hholds.remove]
  have hkeeps := Disk.keeps_delete hholds.not_directory
  rw [hremoved, Disk.isThere_of_resolve
    (Disk.resolve_of_keeps hkeeps hholds.leads hholds.not_directory rfl),
    Disk.node?_delete_self hholds.not_directory]
  rfl

/-- A disk that is full after the first of two bytes. -/
example :
    let path : Text := "log".toList
    let marker : Text := "log.live".toList
    let full : IoError := ⟨.other, "no space left"⟩
    DiskLog.finalize ⟨⟨[([path], .file 0 []), ([marker], .file 1 [])], 2⟩,
        ⟨path, some marker, some ⟨0, [97, 98]⟩, true⟩, [some ⟨1, 1, full⟩]⟩ =
      (.error full, ⟨⟨[([path], .file 0 [97])], 2⟩, ⟨path, none, none, false⟩, []⟩) := by
  decide

end BuildStep
