import BuildStep.Text.Basic

/-!
# Arguments of a command line

An argument that starts with a hyphen names a parameter, unless it is a single hyphen or comes
after `--`.  The value of a parameter follows it as the next argument, or in the same argument:
after an equals sign, or right after the letter of a short name.

* `Argument.of` says what one argument is by itself.
* `Arguments.scan` sorts all arguments of a command into parameters and the rest.
-/

namespace BuildStep

/-- What a command can be given by name. -/
inductive Parameter
  /-- Output is JSON. -/
  | json
  /-- Totals are wanted, and not the text itself. -/
  | summary
  | log
  | whileExists
  | pollInterval
  | binds
  | ports
  | links
deriving DecidableEq, Repr

namespace Parameter

/-- The name after two hyphens. -/
def long : Parameter → String
  | .json => "json"
  | .summary => "summary"
  | .log => "log"
  | .whileExists => "while-exists"
  | .pollInterval => "poll-interval-ms"
  | .binds => "binds"
  | .ports => "ports"
  | .links => "links"

/-- The letter after one hyphen. -/
def short? : Parameter → Option Char
  | .summary => some 's'
  | .log => some 'l'
  | _ => none

/-- The parameter has a value; otherwise it only is or is not there. -/
def takesValue : Parameter → Bool
  | .json => false
  | .summary => false
  | _ => true

end Parameter

/-- What one argument is by itself. -/
inductive Argument
  | value (t : Text)
  /-- Everything after it is a value. -/
  | separator
  /-- The name of a parameter, with the text after an equals sign. -/
  | long (name : Text) (attached : Option Text)
  /-- The letter of a parameter, with the text after it. -/
  | short (letter : Char) (attached : Text)
deriving DecidableEq, Repr

namespace Argument

/-- What follows the first equals sign of a text. -/
def afterEquals? (t : Text) : Option Text :=
  match t.dropWhile (· ≠ '=') with
  | [] => none
  | _ :: rest => some rest

/-- Says what an argument is. -/
def of : Text → Argument
  | ['-', '-'] => .separator
  | '-' :: '-' :: rest => .long (rest.takeWhile (· ≠ '=')) (afterEquals? rest)
  | '-' :: letter :: rest => .short letter rest
  | t => .value t

/-- The argument is neither a parameter nor the separator. -/
def isValue (t : Text) : Bool :=
  match of t with
  | .value _ => true
  | _ => false

/-- The text that is attached to a short name; an equals sign in front does not belong to it. -/
def attachedTo : Text → Option Text
  | [] => none
  | '=' :: rest => some rest
  | t => some t

/-- The parameter that an argument names, and the value that is attached to it.  No command knows
two parameters that could share one hyphen, so whatever follows a letter is its value. -/
def parameter? (known : List Parameter) : Argument → Option (Parameter × Option Text)
  | .long name attached => (known.find? fun p => p.long.toList = name).map (·, attached)
  | .short letter attached =>
    (known.find? fun p => p.short? = some letter).map (·, attachedTo attached)
  | _ => none

end Argument

/-- The arguments of a command. -/
structure Arguments where
  /-- Parameters and their values, in no particular order; no parameter is there twice. -/
  named : List (Parameter × Text)
  /-- The other arguments, in order. -/
  positional : List Text
deriving DecidableEq, Repr

namespace Arguments

/-- No arguments. -/
def none : Arguments := ⟨[], []⟩

/-- The parameter was given. -/
def has (a : Arguments) (p : Parameter) : Bool :=
  a.named.any fun entry => entry.1 = p

/-- The value of a parameter. -/
def value? (a : Arguments) (p : Parameter) : Option Text :=
  a.named.lookup p

/-- The arguments with one more parameter, which must not be there yet. -/
def give? (a : Arguments) (p : Parameter) (value : Text) : Option Arguments :=
  if a.has p then Option.none else some { a with named := (p, value) :: a.named }

/-- The arguments with one more that has no name. -/
def giveValue (a : Arguments) (t : Text) : Arguments :=
  { a with positional := a.positional ++ [t] }

/-- Sorts the arguments of a command that knows certain parameters; `a` holds what came before.
Nothing if a parameter is unknown or given twice, lacks its value, or has one that it does not
take. -/
def scanFrom (known : List Parameter) (a : Arguments) : List Text → Option Arguments
  | [] => some a
  | t :: rest =>
    match Argument.of t with
    | .separator => some { a with positional := a.positional ++ rest }
    | .value t => scanFrom known (a.giveValue t) rest
    | argument =>
      match argument.parameter? known with
      | Option.none => Option.none
      | some (p, attached) =>
        match p.takesValue, attached, rest with
        | false, Option.none, rest =>
          match a.give? p [] with
          | some a => scanFrom known a rest
          | Option.none => Option.none
        | true, some v, rest =>
          match a.give? p v with
          | some a => scanFrom known a rest
          | Option.none => Option.none
        | true, Option.none, v :: rest =>
          match Argument.isValue v, a.give? p v with
          | true, some a => scanFrom known a rest
          | _, _ => Option.none
        | _, _, _ => Option.none

/-- Sorts the arguments of a command that knows certain parameters. -/
def scan (known : List Parameter) (arguments : List Text) : Option Arguments :=
  scanFrom known none arguments

end Arguments

end BuildStep
