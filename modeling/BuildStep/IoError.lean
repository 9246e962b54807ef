/-! # Failures of reads, writes and file operations

An `IoError` names what went wrong twice: by a kind, which a reader of the error may act on, and by
a message for people.  Only one kind changes what this library does: a read that was interrupted
took nothing and can be tried again. -/

namespace BuildStep

/-- What kind of failure an operation met. -/
inductive ErrorKind
  /-- The operation was interrupted before it took effect. -/
  | interrupted
  /-- The target no longer takes data. -/
  | brokenPipe
  /-- There is nothing by that name. -/
  | notFound
  /-- There is something by that name already. -/
  | alreadyExists
  /-- The name is that of a directory. -/
  | isADirectory
  /-- A name that a path leads through is not that of a directory. -/
  | notADirectory
  /-- The data are not of the form that was asked for. -/
  | invalidData
  /-- An argument of the operation makes no sense. -/
  | invalidInput
  /-- A name is none that a file can have. -/
  | invalidFilename
  /-- No more is known than that it is none of the kinds that have a name. -/
  | other
  /-- Any kind that this library passes on without looking at it. -/
  | named (name : String)
deriving DecidableEq, Repr

namespace ErrorKind

/-- The name of the kind. -/
def name : ErrorKind → String
  | .interrupted => "Interrupted"
  | .brokenPipe => "BrokenPipe"
  | .notFound => "NotFound"
  | .alreadyExists => "AlreadyExists"
  | .isADirectory => "IsADirectory"
  | .notADirectory => "NotADirectory"
  | .invalidData => "InvalidData"
  | .invalidInput => "InvalidInput"
  | .invalidFilename => "InvalidFilename"
  | .other => "Other"
  | .named name => name

/-- The kinds that have a constructor of their own. -/
def known : List ErrorKind :=
  [.interrupted, .brokenPipe, .notFound, .alreadyExists, .isADirectory, .notADirectory,
    .invalidData, .invalidInput, .invalidFilename, .other]

/-- The kind with the given name. -/
def ofName (name : String) : ErrorKind :=
  (known.find? fun k => k.name == name).getD (.named name)

end ErrorKind

/-- A failed operation. -/
structure IoError where
  kind : ErrorKind
  message : String
deriving DecidableEq, Repr

namespace IoError

/-- The operation took nothing and may be tried again. -/
def isTransient (e : IoError) : Bool :=
  e.kind = .interrupted

def notFound : IoError := ⟨.notFound, "No such file or directory (os error 2)"⟩

def alreadyExists : IoError := ⟨.alreadyExists, "File exists (os error 17)"⟩

def notADirectory : IoError := ⟨.notADirectory, "Not a directory (os error 20)"⟩

def isADirectory : IoError := ⟨.isADirectory, "Is a directory (os error 21)"⟩

def nameTooLong : IoError := ⟨.invalidFilename, "File name too long (os error 36)"⟩

/-- A path ends at a NUL for those who follow it, so none may have one in it. -/
def nulInPath : IoError := ⟨.invalidInput, "file name contained an unexpected NUL byte"⟩

/-- What should be text is not. -/
def notText : IoError := ⟨.invalidData, "stream did not contain valid UTF-8"⟩

end IoError

end BuildStep
