import BuildStep.Bind.Basic
import BuildStep.Record

/-! # The grammar of bind mounts

A record is `host:container` or `host:container:mode`, or the same fields with blanks between them,
where `mode` is `ro` or `rw`.  Paths are not empty and have no colon in them. -/

namespace BuildStep.Bind

/-- Reads an access mode; a record without one leaves it unspecified. -/
def readMode : Option Text → Except Fault AccessMode
  | none => .ok .unspecified
  | some t =>
    match AccessMode.ofToken? t with
    | some m => .ok m
    | none => .error (.unknownMode t)

/-- A bind mount from its fields. -/
def ofParts (host container : Text) (mode : Option Text) : Except Fault Bind :=
  if host.isEmpty then .error (.empty .hostPath)
  else if container.isEmpty then .error (.empty .containerPath)
  else if host.contains ':' then .error (.colonInPath host)
  else if container.contains ':' then .error (.colonInPath container)
  else (readMode mode).map fun m => ⟨host, container, m⟩

/-- A bind mount from however many fields there are. -/
def ofFields (delimiter : Delimiter) : List Text → Except Fault Bind
  | [host, container] => ofParts host container none
  | [host, container, mode] => ofParts host container (some mode)
  | fields => .error (.fieldCount delimiter fields.length)

/-- Reads a record with colons between its fields. -/
def readColons (t : Text) : Except Fault Bind :=
  ofFields .colon (t.splitOn ':')

/-- Reads a record with blanks between its fields. -/
def readBlanks (t : Text) : Except Fault Bind :=
  ofFields .blanks (Text.words t)

/-- Reads a record. -/
def read (t : Text) : Except Fault Bind :=
  firstReading (readColons t) (readBlanks t)

/-- Reads a bind mount that stands alone. -/
def parse (t : Text) : Except GrammarError Bind :=
  Record.readSingle .bind read t

/-- Reads a batch of bind mounts. -/
def parseAll (batch : Text) : Except GrammarError (List Bind) :=
  Record.readAll .bind read (Record.lines batch)

end BuildStep.Bind
