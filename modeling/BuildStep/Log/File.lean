import BuildStep.Attachment
import BuildStep.Log.Disk
import BuildStep.Log.Sink
import BuildStep.Text.Utf8

/-! # A log in a file

A `FileLog` appends to a file through a buffer.  While it is live, a marker file may lie beside
the log: it has the name of the log with `.live` after it, and is removed when the log is
finalized or given up.  A log that is given up loses what was not flushed.

* `FileLog.openOn` makes the file first and the marker then; `DiskLog.finalize` flushes first and
  removes the marker then, whether or not it could flush.
* A `FileLog.Fault` says what a write that fails has done; `DiskLog.write` meets them in order.
* `FileLog.Snapshot.read` checks the marker first and reads the file then. -/

namespace BuildStep

namespace FileLog

/-- The path of the marker of a log. -/
def markerPath (path : Text) : Text :=
  path ++ ".live".toList

/-- Number of bytes that are kept back before they are written. -/
def capacity : Nat := 8 * 1024

/-- An open file and the bytes that were not written to it yet. -/
structure Writer where
  serial : Nat
  pending : List UInt8
deriving DecidableEq, Repr

/-- What a write that fails has done. -/
structure Fault where
  /-- Number of bytes that are in the file. -/
  written : Nat
  /-- Number of bytes that will not be written again. -/
  taken : Nat
  error : IoError
deriving DecidableEq, Repr

/-- The error of a write to a finalized log. -/
def finalizedError (path : Text) : IoError :=
  ⟨.brokenPipe, s!"log {String.ofList path} is already finalized"⟩

/-- What is written into a marker: who writes the log, and since when. -/
def markerContent (a : Attachment) (since : Text) : List UInt8 :=
  Utf8.encode (a.render ++ [' '] ++ since ++ ['\n'])

end FileLog

/-- A log that is kept in a file. -/
structure FileLog where
  path : Text
  /-- The marker that is to be removed in the end. -/
  marker : Option Text
  /-- The file, until the log is finalized. -/
  writer : Option FileLog.Writer
  live : Bool
deriving DecidableEq, Repr

/-- A log together with the disk that it lies on. -/
structure DiskLog where
  disk : Disk
  log : FileLog
  /-- What becomes of the next writes to the file; all after these succeed. -/
  faults : List (Option FileLog.Fault)
deriving DecidableEq, Repr

namespace FileLog

/-- Opens a log at the end of a file, which is made if it is not there, and puts a marker beside
it if one is wanted.  If the marker cannot be written the file stays. -/
def openOn (disk : Disk) (path : Text) (a : Attachment) (since : Text) (withMarker : Bool) :
    Except IoError FileLog × Disk :=
  match disk.openAppend path with
  | .error e => (.error e, disk)
  | .ok (serial, disk) =>
    if withMarker then
      match disk.write (markerPath path) (markerContent a since) with
      | .error e => (.error e, disk)
      | .ok disk => (.ok ⟨path, some (markerPath path), some ⟨serial, []⟩, true⟩, disk)
    else (.ok ⟨path, none, some ⟨serial, []⟩, true⟩, disk)

end FileLog

namespace DiskLog

/-- The disk after the marker of the log was removed; that it cannot be removed is no failure. -/
def withoutMarker (d : DiskLog) : Disk :=
  match d.log.marker with
  | none => d.disk
  | some marker =>
    match d.disk.remove marker with
    | .ok disk => disk
    | .error _ => d.disk

/-- Writes bytes at the end of the file with a serial number, as far as the next fault lets it.
Also gives the bytes that are kept for another write. -/
def write (d : DiskLog) (serial : Nat) (bytes : List UInt8) :
    Except IoError Unit × List UInt8 × DiskLog :=
  match d.faults with
  | some fault :: faults =>
    (.error fault.error, bytes.drop fault.taken,
      { d with disk := d.disk.appendTo serial (bytes.take fault.written), faults := faults })
  | faults =>
    (.ok (), [], { d with disk := d.disk.appendTo serial bytes, faults := faults.tail })

/-- The log with another writer. -/
def withWriter (d : DiskLog) (w : FileLog.Writer) : DiskLog :=
  { d with log := { d.log with writer := some w } }

/-- Writes the buffer of a writer. -/
def writeBuffer (d : DiskLog) (w : FileLog.Writer) : Except IoError Unit × DiskLog :=
  match d.write w.serial w.pending with
  | (result, kept, d) => (result, d.withWriter ⟨w.serial, kept⟩)

/-- Adds bytes to a buffer that has room for them.  As many as the whole buffer holds are written at
once. -/
def addBytes (d : DiskLog) (w : FileLog.Writer) (bytes : List UInt8) :
    Except IoError Unit × DiskLog :=
  if FileLog.capacity ≤ bytes.length then
    match d.write w.serial bytes with
    | (result, _, d) => (result, d.withWriter w)
  else (.ok (), d.withWriter ⟨w.serial, w.pending ++ bytes⟩)

/-- Adds text to the buffer.  A buffer that has no room for it is written first. -/
def append (d : DiskLog) (t : Text) : Except IoError Unit × DiskLog :=
  match d.log.writer with
  | none => (.error (FileLog.finalizedError d.log.path), d)
  | some w =>
    if FileLog.capacity < w.pending.length + (Utf8.encode t).length then
      match d.writeBuffer w with
      | (.error e, d) => (.error e, d)
      | (.ok (), d) => d.addBytes ⟨w.serial, []⟩ (Utf8.encode t)
    else d.addBytes w (Utf8.encode t)

/-- Writes the buffer. -/
def flush (d : DiskLog) : Except IoError Unit × DiskLog :=
  match d.log.writer with
  | none => (.error (FileLog.finalizedError d.log.path), d)
  | some w => d.writeBuffer w

/-- The log when its file is closed and its marker removed. -/
def closed (d : DiskLog) : DiskLog :=
  ⟨d.withoutMarker, ⟨d.log.path, none, none, false⟩, d.faults⟩

/-- Writes the buffer, closes the file, and only then removes the marker.  The file is closed and the
marker removed even if the buffer cannot be written. -/
def finalize (d : DiskLog) : Except IoError Unit × DiskLog :=
  match d.log.writer with
  | none => (.ok (), d)
  | some w =>
    match d.writeBuffer w with
    | (flushed, d) => (flushed, d.closed)

/-- Gives the log up: what is still in the buffer is lost. -/
def drop (d : DiskLog) : DiskLog :=
  match d.log.writer with
  | none => d
  | some _ => d.closed

instance : LogSink DiskLog where
  append := append
  flush := flush
  finalize := finalize
  isLive d := d.log.live

end DiskLog

/-- What a reader finds. -/
structure Snapshot where
  text : Text
  /-- There was a marker. -/
  live : Bool
deriving DecidableEq, Repr

namespace Snapshot

/-- Reads a log.  The marker is looked for before the file is read, so the text of a log without
one is complete. -/
def read (disk : Disk) (path : Text) : Except IoError Snapshot := do
  let live ← disk.isThere? (FileLog.markerPath path)
  let bytes ← disk.read path
  return ⟨Utf8.decode bytes, live⟩

end Snapshot

end BuildStep
