import BuildStep.Text.Basic

/-! # Batches of records

Configuration is written as batches of records: bind mounts and port bindings one to a line, links
with commas between them.  Blank records count but mean nothing, and the first record that cannot
be read spoils the batch.

A record is read twice if need be: once with colons between its fields, and if that fails once with
blanks between them.

* `Fault` lists everything that can be wrong with a record, `GrammarError` says which record it is.
* `firstReading` joins the two readings of a record and chooses between two faults.
* `Record.lines` and `Record.items` cut a batch, `Record.readAll` reads it. -/

namespace BuildStep

/-- The grammars of records. -/
inductive Grammar
  | bind
  | portBinding
  | link
deriving DecidableEq, Repr

/-- What the records of a grammar are called. -/
def Grammar.name : Grammar → String
  | .bind => "bind"
  | .portBinding => "port binding"
  | .link => "link"

/-- What stands between the fields of a record. -/
inductive Delimiter
  | colon
  | blanks
deriving DecidableEq, Repr

/-- A field that must not be empty. -/
inductive RequiredField
  | hostPath
  | containerPath
  | containerPort
  | containerName
  | linkAlias
deriving DecidableEq, Repr

/-- What the field is called. -/
def RequiredField.name : RequiredField → String
  | .hostPath => "host path"
  | .containerPath => "container path"
  | .containerPort => "container port"
  | .containerName => "container name"
  | .linkAlias => "alias"

/-- A field that holds a port. -/
inductive PortField
  | host
  | container
deriving DecidableEq, Repr

/-- What the field is called. -/
def PortField.name : PortField → String
  | .host => "host port"
  | .container => "container port"

/-- What is wrong with a record. -/
inductive Fault
  /-- There is nothing in it. -/
  | blank
  /-- A bind mount has neither two nor three fields. -/
  | fieldCount (delimiter : Delimiter) (found : Nat)
  /-- A port binding has nothing to tell the container port by. -/
  | noContainerPort (delimiter : Delimiter)
  /-- A link has not exactly two fields. -/
  | notAPair (delimiter : Delimiter)
  /-- A path of a bind mount has a colon in it. -/
  | colonInPath (path : Text)
  | unknownMode (token : Text)
  | unknownProtocol (token : Text)
  | notANumber (field : PortField) (token : Text)
  | outOfRange (field : PortField) (token : Text)
  | containerPortZero
  | notDottedQuad (address : Text)
  /-- A name of a link has a colon or a blank in it. -/
  | delimiterInName (name : Text)
  /-- A required field is empty. -/
  | empty (field : RequiredField)
deriving DecidableEq, Repr

namespace Fault

/-- The fields could not even be told apart. -/
def isShape : Fault → Bool
  | .fieldCount _ _ => true
  | .noContainerPort _ => true
  | .notAPair _ => true
  | _ => false

/-- The wording of the fault; for an empty field, what that field is called. -/
def detail : Fault → String
  | .blank => "record is empty"
  | .fieldCount .colon n => s!"expected 2 or 3 ':'-separated fields, found {n}"
  | .fieldCount .blanks n => s!"expected 2 or 3 ' '-separated fields, found {n}"
  | .noContainerPort .colon => "no ':' before the container port"
  | .noContainerPort .blanks => "no whitespace before the container port"
  | .notAPair .colon => "expected exactly one ':' delimiter"
  | .notAPair .blanks => "expected exactly one whitespace delimiter"
  | .colonInPath path => s!"path '{String.ofList path}' contains ':'"
  | .unknownMode t => s!"access mode must be 'ro' or 'rw', found '{String.ofList t}'"
  | .unknownProtocol t => s!"protocol must be 'tcp' or 'udp', found '{String.ofList t}'"
  | .notANumber field t => s!"{field.name} '{String.ofList t}' is not a number"
  | .outOfRange field t => s!"{field.name} '{String.ofList t}' is out of range"
  | .containerPortZero => "container port must be positive"
  | .notDottedQuad t => s!"host IP '{String.ofList t}' is not a dotted-quad address"
  | .delimiterInName t => s!"'{String.ofList t}' may not contain ':' or whitespace"
  | .empty field => field.name

/-- The required field that is empty, if that is the fault. -/
def emptyField? : Fault → Option RequiredField
  | .empty field => some field
  | _ => none

end Fault

/-- A record that cannot be read. -/
structure GrammarError where
  grammar : Grammar
  /-- The number of the record in its batch, from one. -/
  record : Nat
  text : Text
  fault : Fault
deriving DecidableEq, Repr

/-- The wording of the error. -/
def GrammarError.message (e : GrammarError) : String :=
  match e.fault.emptyField? with
  | some field =>
    s!"{e.grammar.name} record {e.record} '{String.ofList e.text}' has an empty {field.name}"
  | none =>
    s!"malformed {e.grammar.name} record {e.record} '{String.ofList e.text}': {e.fault.detail}"

/-- The first of two readings that succeeds.  If neither does, the fault of the first reading is
the one to report, unless it could not tell the fields apart and the second reading could. -/
def firstReading {α : Type} (first second : Except Fault α) : Except Fault α :=
  match first, second with
  | .ok a, _ => .ok a
  | .error _, .ok a => .ok a
  | .error e, .error e' => if e.isShape && !e'.isShape then .error e' else .error e

namespace Record

/-- The records among the parts of a batch, with the number of each part, from one.  Blanks around
a part do not belong to the record. -/
def numbered (parts : List Text) : List (Nat × Text) :=
  ((parts.map Text.trim).zipIdx 1).filterMap fun (part, n) =>
    if part.isEmpty then none else some (n, part)

/-- The records of a batch that is written one to a line. -/
def lines (batch : Text) : List (Nat × Text) :=
  numbered (batch.splitOn '\n')

/-- The records of a batch that is written with commas. -/
def items (batch : Text) : List (Nat × Text) :=
  numbered (batch.splitOn ',')

/-- Reads one numbered record. -/
def read {α : Type} (grammar : Grammar) (reading : Text → Except Fault α) (record : Nat × Text) :
    Except GrammarError α :=
  match reading record.2 with
  | .ok a => .ok a
  | .error fault => .error ⟨grammar, record.1, record.2, fault⟩

/-- Reads numbered records in order, up to the first that cannot be read. -/
def readAll {α : Type} (grammar : Grammar) (reading : Text → Except Fault α)
    (records : List (Nat × Text)) : Except GrammarError (List α) :=
  records.mapM (read grammar reading)

/-- Reads a record that stands alone. -/
def readSingle {α : Type} (grammar : Grammar) (reading : Text → Except Fault α) (t : Text) :
    Except GrammarError α :=
  if (Text.trim t).isEmpty then .error ⟨grammar, 1, t, .blank⟩
  else read grammar reading (1, Text.trim t)

end Record

end BuildStep
