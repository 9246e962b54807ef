import BuildStep.IoError
import BuildStep.Text.Utf8

/-! # A directory of files

A `Disk` is a working directory as a value, with as much of the file system around it as is known:
a table from the names that lead to an entry to the entry.  A file keeps its serial number for as
long as it has an entry, so a writer that opened it goes on writing to it and to no other file that
takes its name.

* `Disk.resolve` follows a path and says why it leads nowhere.
* `Disk.read`, `write`, `remove`, `makeDirectory`, `openAppend` are the file operations;
  `Disk.appendTo` writes to a file that was opened. -/

namespace BuildStep

/-- What a name stands for. -/
inductive Node
  | file (serial : Nat) (content : List UInt8)
  | directory
  /-- A pipe: bytes that wait to be read, of which there may always be more. -/
  | pipe (content : List UInt8)
deriving DecidableEq, Repr

/-- The entries of a working directory and of the directories in it. -/
structure Disk where
  /-- Each entry under the names of the directories that lead to it and its own. -/
  entries : List (List Text × Node)
  /-- The serial number of the next file. -/
  nextSerial : Nat
deriving DecidableEq, Repr

/-- Where a path leads. -/
structure Location where
  /-- The names from the root or from the working directory on; none for the working directory
  itself. -/
  names : List Text
  /-- The path is written as that of a directory. -/
  asDirectory : Bool
deriving DecidableEq, Repr

namespace Disk

/-- A directory without entries. -/
def empty : Disk := ⟨[], 0⟩

/-- The names that stand for the root of the file system.  No other name has a slash in it. -/
def root : List Text := [['/']]

/-- The name of the directory that a directory lies in. -/
def up : Text := ['.', '.']

/-- The names stand for the working directory or for one that it lies in.  The names of those are
not known, so they are told apart by how many steps lead up to them. -/
def isAround (names : List Text) : Bool :=
  names.all (· = up)

/-- The entry under some names.  Of the directories around the working directory it is known that
they are there, but not what else is in them. -/
def node? (d : Disk) (names : List Text) : Option Node :=
  if isAround names ∨ names = root then some .directory else d.entries.lookup names

/-- The directory that a directory lies in.  The root lies in itself. -/
def parent (directory : List Text) : List Text :=
  if isAround directory then directory ++ [up]
  else if directory = root then root
  else directory.dropLast

/-- Most bytes that a name may have. -/
def nameLimit : Nat := 255

/-- Most bytes that a path may have. -/
def pathLimit : Nat := 4095

/-- A name in a directory, unless it is too long to be one. -/
def child (directory : List Text) (name : Text) : Except IoError (List Text) :=
  if nameLimit < Utf8.size name then .error .nameTooLong
  else .ok (directory ++ [name])

/-- Follows the names of a path, from a directory on. -/
def follow (d : Disk) (directory : List Text) : List Text → Except IoError (List Text)
  | [] => .ok directory
  | ['.'] :: rest => follow d directory rest
  | ['.', '.'] :: rest => follow d (parent directory) rest
  | [name] => child directory name
  | name :: rest =>
    match child directory name with
    | .error e => .error e
    | .ok names =>
      match d.node? names with
      | some .directory => follow d names rest
      | some _ => .error .notADirectory
      | none => .error .notFound

/-- The names in a path. -/
def namesOf (path : Text) : List Text :=
  (path.splitOn '/').filter fun name => !name.isEmpty

/-- Where a path starts. -/
def startOf (path : Text) : List Text :=
  if path.head? = some '/' then root else []

/-- Follows a path, unless it is too long to be one.  The last name need not stand for anything. -/
def resolve (d : Disk) (path : Text) : Except IoError Location :=
  if path.contains '\x00' then .error .nulInPath
  else if path.isEmpty then .error .notFound
  else if pathLimit < Utf8.size path then .error .nameTooLong
  else
    (d.follow (startOf path) (namesOf path)).map fun names =>
      ⟨names, path.getLast? = some '/'⟩

/-- The entry that a path leads to. -/
def get (d : Disk) (path : Text) : Except IoError Node := do
  let location ← d.resolve path
  match d.node? location.names with
  | none => .error .notFound
  | some .directory => .ok .directory
  | some node => if location.asDirectory then .error .notADirectory else .ok node

/-- There is something at the path. -/
def isThere (d : Disk) (path : Text) : Bool :=
  match d.get path with
  | .ok _ => true
  | .error _ => false

/-- There is something at the path, or an error if that cannot be told. -/
def isThere? (d : Disk) (path : Text) : Except IoError Bool :=
  match d.get path with
  | .ok _ => .ok true
  | .error e => if e.kind = .notFound then .ok false else .error e

/-- The disk with an entry added or replaced. -/
def put (d : Disk) (names : List Text) (node : Node) : Disk :=
  { d with entries := (names, node) :: d.entries.filter fun entry => entry.1 != names }

/-- The disk without an entry. -/
def delete (d : Disk) (names : List Text) : Disk :=
  { d with entries := d.entries.filter fun entry => entry.1 != names }

/-- The bytes of a file. -/
def read (d : Disk) (path : Text) : Except IoError (List UInt8) := do
  match ← d.get path with
  | .file _ content => .ok content
  | .directory => .error .isADirectory
  | .pipe content => .ok content

/-- The location of a file to be written, and the file if it is there.  A path that is written as
that of a directory is none of a file, whatever is there. -/
def target (d : Disk) (path : Text) :
    Except IoError (List Text × Option (Nat × List UInt8)) := do
  let location ← d.resolve path
  match d.node? location.names with
  | some .directory => .error .isADirectory
  | some (.file serial content) =>
    if location.asDirectory then .error .isADirectory
    else .ok (location.names, some (serial, content))
  | some (.pipe _) =>
    if location.asDirectory then .error .isADirectory else .ok (location.names, none)
  | none => if location.asDirectory then .error .isADirectory else .ok (location.names, none)

/-- Makes the bytes the whole content of a file, which is made if it is not there. -/
def write (d : Disk) (path : Text) (content : List UInt8) : Except IoError Disk := do
  match ← d.target path with
  | (names, some (serial, _)) => .ok (d.put names (.file serial content))
  | (names, none) =>
    .ok { d.put names (.file d.nextSerial content) with nextSerial := d.nextSerial + 1 }

/-- Opens a file for writing at its end, which is made if it is not there, and gives its serial
number. -/
def openAppend (d : Disk) (path : Text) : Except IoError (Nat × Disk) := do
  match ← d.target path with
  | (_, some (serial, _)) => .ok (serial, d)
  | (names, none) =>
    .ok (d.nextSerial, { d.put names (.file d.nextSerial []) with nextSerial := d.nextSerial + 1 })

/-- An entry after bytes were written at the end of a file. -/
def Node.appendTo (serial : Nat) (bytes : List UInt8) : Node → Node
  | .file s content => if s = serial then .file s (content ++ bytes) else .file s content
  | node => node

/-- Writes at the end of the file with a serial number.  If the file has no entry any more, nobody
will read what was written. -/
def appendTo (d : Disk) (serial : Nat) (bytes : List UInt8) : Disk :=
  { d with entries := d.entries.map fun entry => (entry.1, Node.appendTo serial bytes entry.2) }

/-- Removes an entry that is not a directory. -/
def remove (d : Disk) (path : Text) : Except IoError Disk := do
  let location ← d.resolve path
  match d.node? location.names with
  | none => .error .notFound
  | some .directory => .error .isADirectory
  | some _ =>
    if location.asDirectory then .error .notADirectory else .ok (d.delete location.names)

/-- Makes a directory. -/
def makeDirectory (d : Disk) (path : Text) : Except IoError Disk := do
  let location ← d.resolve path
  match d.node? location.names with
  | some _ => .error .alreadyExists
  | none => .ok (d.put location.names .directory)

/-- The names of the working directory itself, in order. -/
def names (d : Disk) : List Text :=
  (d.entries.filterMap fun entry =>
    match entry.1 with
    | [name] => some name
    | _ => none).mergeSort fun a b => (compare a b).isLE

end Disk

end BuildStep
