import BuildStep.Log.Disk
import BuildStep.Stream.Transport

/-!
# Streams that lie on a disk

Whatever can be opened can be a source: a file ends, a pipe is kept open by its writer, and reading
a directory fails.
-/

namespace BuildStep

/-- A transport that gives some bytes and then ends or falls silent. -/
def Transport.ofBytes (bytes : List UInt8) (ending : Ending) : Transport :=
  ⟨if bytes.isEmpty then [] else Reply.ofBytes bytes, ending⟩

/-- What reading a node gives. -/
def Node.transport : Node → Transport
  | .file _ content => .ofBytes content .closed
  | .directory => ⟨[.failed .isADirectory], .closed⟩
  | .pipe content => .ofBytes content .silent

/-- Opens what lies at a path. -/
def Disk.source (d : Disk) (path : Text) : Except IoError Transport :=
  (d.get path).map Node.transport

end BuildStep
