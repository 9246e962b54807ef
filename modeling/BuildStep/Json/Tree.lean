import BuildStep.Json.Literal
import BuildStep.Text.Decimal

/-!
# JSON values

A `JsonTree` is a JSON value with its numbers, strings and names of members kept as they are
written, so that nothing has to be decided about a value that nobody reads.  `ofText`, `ofNat` and
`record` build trees, `text?`, `port?` and `fields?` read them; `compact` and `pretty` write them.
-/

namespace BuildStep

/-- A JSON value. -/
inductive JsonTree
  | null
  | bool (b : Bool)
  /-- A number as it is written. -/
  | number (literal : Text)
  /-- A string as it is written between its quotes. -/
  | string (literal : Text)
  | array (elements : List JsonTree)
  /-- An object; the names are as they are written between their quotes. -/
  | object (members : List (Text × JsonTree))
deriving Repr

namespace JsonTree

/-! ## Building -/

/-- A text as a string. -/
def ofText (t : Text) : JsonTree := .string (JsonLiteral.escape t)

/-- A number without sign, fraction and exponent. -/
def ofNat (n : Nat) : JsonTree := .number (Decimal.digits n)

/-- Texts as an array of strings. -/
def ofTexts (ts : List Text) : JsonTree := .array (ts.map ofText)

/-- A text that may be absent, with `null` in its place. -/
def ofText? : Option Text → JsonTree
  | some t => ofText t
  | none => .null

/-- An object with the given names and values. -/
def ofFields (fields : List (String × JsonTree)) : JsonTree :=
  .object (fields.map fun field => (JsonLiteral.escape field.1.toList, field.2))

/-- A string in quotes. -/
def quoted (literal : Text) : Text :=
  '"' :: literal ++ ['"']

/-! ## Writing -/

mutual

/-- The value without blanks. -/
def compact : JsonTree → Text
  | .null => ['n', 'u', 'l', 'l']
  | .bool true => ['t', 'r', 'u', 'e']
  | .bool false => ['f', 'a', 'l', 's', 'e']
  | .number literal => literal
  | .string literal => quoted literal
  | .array [] => ['[', ']']
  | .array (v :: rest) => '[' :: compact v ++ compactElements rest
  | .object [] => ['\x7b', '\x7d']
  | .object ((name, v) :: rest) => '\x7b' :: quoted name ++ ':' :: compact v ++ compactMembers rest

/-- All but the first element of an array, and its end. -/
def compactElements : List JsonTree → Text
  | [] => [']']
  | v :: rest => ',' :: compact v ++ compactElements rest

/-- All but the first member of an object, and its end. -/
def compactMembers : List (Text × JsonTree) → Text
  | [] => ['\x7d']
  | (name, v) :: rest => ',' :: quoted name ++ ':' :: compact v ++ compactMembers rest

end

/-- The start of a new line at some depth; each level is two spaces deep. -/
def newline (depth : Nat) : Text :=
  '\n' :: List.replicate (2 * depth) ' '

mutual

/-- The value with one element or member to a line; `depth` is how deep the value itself lies. -/
def prettyAt (depth : Nat) : JsonTree → Text
  | .null => ['n', 'u', 'l', 'l']
  | .bool true => ['t', 'r', 'u', 'e']
  | .bool false => ['f', 'a', 'l', 's', 'e']
  | .number literal => literal
  | .string literal => quoted literal
  | .array [] => ['[', ']']
  | .array (v :: rest) =>
    '[' :: newline (depth + 1) ++ prettyAt (depth + 1) v ++ prettyElements depth rest
  | .object [] => ['\x7b', '\x7d']
  | .object ((name, v) :: rest) =>
    '\x7b' :: newline (depth + 1) ++ quoted name ++ [':', ' '] ++ prettyAt (depth + 1) v ++
      prettyMembers depth rest

/-- All but the first element of an array that lies at the given depth, and its end. -/
def prettyElements (depth : Nat) : List JsonTree → Text
  | [] => newline depth ++ [']']
  | v :: rest =>
    ',' :: newline (depth + 1) ++ prettyAt (depth + 1) v ++ prettyElements depth rest

/-- All but the first member of an object that lies at the given depth, and its end. -/
def prettyMembers (depth : Nat) : List (Text × JsonTree) → Text
  | [] => newline depth ++ ['\x7d']
  | (name, v) :: rest =>
    ',' :: newline (depth + 1) ++ quoted name ++ [':', ' '] ++ prettyAt (depth + 1) v ++
      prettyMembers depth rest

end

/-- The value with one element or member to a line, for people to read. -/
def pretty (j : JsonTree) : Text :=
  prettyAt 0 j

/-! ## Reading -/

/-- The text of a string. -/
def text? : JsonTree → Option Text
  | .string literal => JsonLiteral.unescape? literal
  | _ => none

/-- The elements of an array. -/
def elements? : JsonTree → Option (List JsonTree)
  | .array elements => some elements
  | _ => none

/-- The texts of an array of strings. -/
def texts? (j : JsonTree) : Option (List Text) :=
  j.elements?.bind (List.mapM text?)

/-- The greatest port. -/
def maxPort : Nat := 65535

/-- The value of a number that is written with digits alone and is small enough for a port. -/
def port? : JsonTree → Option UInt16
  | .number literal => ((Decimal.read? literal).bind (Decimal.atMost? maxPort)).map UInt16.ofNat
  | _ => none

/-- The text of a field that may be absent or `null`. -/
def optionalText? : Option JsonTree → Option (Option Text)
  | none => some none
  | some .null => some none
  | some j => j.text?.map some

/-- The members of an object with the names they stand for. -/
def named? (members : List (Text × JsonTree)) : Option (List (Text × JsonTree)) :=
  members.mapM fun m => (JsonLiteral.unescape? m.1).map fun name => (name, m.2)

/-- The only member of the given name, if there is one; more than one is an error. -/
def field? (members : List (Text × JsonTree)) (name : String) : Option (Option JsonTree) :=
  match members.filter fun m => m.1 = name.toList with
  | [] => some none
  | [m] => some (some m.2)
  | _ => none

/-- How many elements an array may have that stands for a record. -/
inductive Arity
  /-- One for each field. -/
  | exact
  /-- Fields at the end may be left out. -/
  | upTo
deriving DecidableEq, Repr

/-- The number of elements fits the number of fields. -/
def Arity.admits (fields : Nat) (elements : Nat) : Arity → Bool
  | .exact => elements = fields
  | .upTo => elements ≤ fields

/-- The values of a record's fields, each of which may be absent.  A record is an object, whose other
members do not matter, or an array of the values in the order of the fields. -/
def fields? (names : List String) (arity : Arity) : JsonTree → Option (List (Option JsonTree))
  | .object members => do
    let members ← named? members
    names.mapM (field? members)
  | .array elements =>
    if arity.admits names.length elements.length then
      some (elements.map some ++ List.replicate (names.length - elements.length) none)
    else none
  | _ => none

/-- The name in a string, or the only name in an object without content. -/
def choice? : JsonTree → Option Text
  | .string literal => JsonLiteral.unescape? literal
  | .object [(literal, .null)] => JsonLiteral.unescape? literal
  | _ => none

end JsonTree

end BuildStep
