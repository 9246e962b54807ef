import BuildStep.Link.Basic
import BuildStep.Record

/-! # The grammar of links

A record is `name:alias`, or the two with blanks between them.  Neither is empty or has a colon or
a blank in it. -/

namespace BuildStep.Link

/-- The text can be neither name of a link: it has a delimiter in it. -/
def hasDelimiter (t : Text) : Bool :=
  t.contains ':' || t.any Text.isBlank

/-- A link from its two names. -/
def ofParts (name knownAs : Text) : Except Fault Link :=
  if name.isEmpty then .error (.empty .containerName)
  else if knownAs.isEmpty then .error (.empty .linkAlias)
  else if hasDelimiter name then .error (.delimiterInName name)
  else if hasDelimiter knownAs then .error (.delimiterInName knownAs)
  else .ok ⟨name, knownAs⟩

/-- A link from however many fields there are; blanks around a field do not belong to it. -/
def ofFields (delimiter : Delimiter) : List Text → Except Fault Link
  | [name, knownAs] => ofParts (Text.trim name) (Text.trim knownAs)
  | _ => .error (.notAPair delimiter)

/-- Reads a record with a colon between its fields. -/
def readColons (t : Text) : Except Fault Link :=
  ofFields .colon (t.splitOn ':')

/-- Reads a record with blanks between its fields. -/
def readBlanks (t : Text) : Except Fault Link :=
  ofFields .blanks (Text.words t)

/-- Reads a record. -/
def read (t : Text) : Except Fault Link :=
  firstReading (readColons t) (readBlanks t)

/-- Reads a link that stands alone. -/
def parse (t : Text) : Except GrammarError Link :=
  Record.readSingle .link read t

/-- Reads a batch of links. -/
def parseAll (batch : Text) : Except GrammarError (List Link) :=
  Record.readAll .link read (Record.items batch)

end BuildStep.Link
