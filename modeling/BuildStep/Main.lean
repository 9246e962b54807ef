import BuildStep.Command.Run

/-!
# The command line

Everything that a command decides is decided by `Invocation.run`.  Here the part of the file system
that the command may look at is read into a `Disk`, and what has changed is written back.
-/

namespace BuildStep.CommandLine

/-- What is said to someone whose arguments make no sense. -/
def usage : String :=
  "usage: [--json] parse binds|ports|links TEXT\n" ++
  "       [--json] parse host-config [--binds TEXT] [--ports TEXT] [--links TEXT]\n" ++
  "       [--json] stream demux FILE [-s]\n" ++
  "       [--json] stream tail SOURCE -l LOG [--while-exists PATH] [--poll-interval-ms N]\n" ++
  "       [--json] stream log-status LOG"

/-- The variables that matter to a command. -/
def variableNames : List String :=
  [Timing.pollInterval.variableName, Timing.drainIdle.variableName,
    Timing.releaseTimeout.variableName, Settings.markerVariable, Command.logVariable]

/-- The path that an argument takes its text from. -/
def textPath : Text → List Text
  | '@' :: path => [path]
  | _ => []

/-- The paths that a command may look at. -/
def paths : Command → List Text
  | .parse _ text => textPath text
  | .hostConfig binds ports links => [binds, ports, links].flatMap fun t => (t.map textPath).getD []
  | .demux file _ => [file]
  | .tail source log whileExists _ =>
    [source, log, FileLog.markerPath log] ++ whileExists.toList
  | .logStatus log => [log, FileLog.markerPath log]

/-- The paths that a command may write to. -/
def written : Command → List Text
  | .tail _ log _ _ => [log, FileLog.markerPath log]
  | _ => []

/-- The command reads the standard input. -/
def readsInput : Command → Bool
  | .parse _ text => text = ['-']
  | .hostConfig binds ports links => [binds, ports, links].contains (some ['-'])
  | .tail source _ _ _ => source = ['-']
  | _ => false

/-- Reads a stream to its end. -/
partial def readAll (stream : IO.FS.Stream) (sofar : ByteArray) : IO ByteArray := do
  let chunk ← stream.read 65536
  if chunk.isEmpty then return sofar else readAll stream (sofar ++ chunk)

/-- The bytes that a process is given, as a list. -/
def bytesOf (bytes : ByteArray) : List UInt8 :=
  bytes.data.toList

/-- Reads what lies on the way of a path, and at its end, into a disk.  A pipe is read to its end,
so it counts as a file. -/
def load (disk : Disk) (path : Text) : IO Disk := do
  let here ← IO.currentDir
  let mut disk := disk
  let mut names := Disk.startOf path
  let mut place := if names.isEmpty then here else here / "/"
  for name in Disk.namesOf path do
    place := place / String.ofList name
    if name = ['.', '.'] then
      names := Disk.parent names
    else if name != ['.'] then
      names := names ++ [name]
      if (disk.node? names).isNone then
        if ← place.isDir then
          disk := disk.put names .directory
        else if ← place.pathExists then
          let content ← IO.FS.readBinFile place
          disk :=
            { disk.put names (.file disk.nextSerial (bytesOf content)) with
              nextSerial := disk.nextSerial + 1 }
  return disk

/-- Writes back what has changed at a path. -/
def store (before after : Disk) (path : Text) : IO Unit := do
  let place := (← IO.currentDir) / String.ofList path
  match before.read path, after.read path with
  | old, .ok content =>
    if old.toOption != some content then
      IO.FS.writeBinFile place ⟨content.toArray⟩
  | .ok _, .error _ => IO.FS.removeFile place
  | .error _, .error _ => return

/-- A new identifier.  Its version and variant say that it was drawn at random. -/
def newAttachment : IO Attachment := do
  let high ← IO.rand 0 0xFFFFFFFFFFFFFFFF
  let low ← IO.rand 0 0xFFFFFFFFFFFFFFFF
  let high := high / 0x10000 * 0x10000 + 0x4000 + high % 0x1000
  let low := 0x8000000000000000 + low % 0x4000000000000000
  return ⟨high * 0x10000000000000000 + low⟩

/-- Carries out a command on the real file system.  A marker is gone again before anything is
written back, so the time in it is of no account. -/
def carryOut (environment : Environment) (i : Invocation) : IO UInt32 := do
  let disk ← (paths i.command).foldlM load Disk.empty
  let input ←
    if readsInput i.command then readAll (← IO.getStdin) ByteArray.empty
    else pure ByteArray.empty
  let session : Session := ⟨disk, bytesOf input, environment, ← newAttachment, [], .strict, []⟩
  match i.run session with
  | none => return 1
  | some report =>
    (written i.command).forM (store disk report.disk)
    IO.print (String.ofList report.output)
    IO.eprint (String.ofList report.errorOutput)
    return report.exitCode.toUInt32

/-- Reads the variables that matter. -/
def readEnvironment : IO Environment := do
  let found ← variableNames.mapM fun name => do
    return (← IO.getEnv name).map fun value => (name, bytesOf value.toUTF8)
  return found.filterMap id

end BuildStep.CommandLine

open BuildStep in
/-- Does what the command line asks for. -/
def main (arguments : List String) : IO UInt32 := do
  let environment ← CommandLine.readEnvironment
  match Invocation.read? environment (arguments.map String.toList) with
  | some i => CommandLine.carryOut environment i
  | none =>
    IO.eprintln CommandLine.usage
    return Invocation.usageExitCode.toUInt32
