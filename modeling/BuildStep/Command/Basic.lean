import BuildStep.Command.Arguments
import BuildStep.Record
import BuildStep.Settings

/-!
# Commands

A command line names a group, a command of that group, and the arguments of the command.
`Invocation.read?` makes sense of it or finds that it makes none.
-/

namespace BuildStep

/-- Something to be done. -/
inductive Command
  /-- Read records and list them. -/
  | parse (grammar : Grammar) (text : Text)
  /-- Build the host configuration of a container. -/
  | hostConfig (binds ports links : Option Text)
  /-- Decode a captured stream. -/
  | demux (file : Text) (summary : Bool)
  /-- Tail a stream into a log, for as long as a certain file exists if one is named. -/
  | tail (source log : Text) (whileExists : Option Text) (pollInterval : Option Nat)
  /-- Look at a log. -/
  | logStatus (log : Text)
deriving DecidableEq, Repr

/-- What a command line asks for. -/
structure Invocation where
  /-- Output is to be JSON. -/
  json : Bool
  command : Command
deriving DecidableEq, Repr

/-- What can be asked for. -/
inductive Verb
  | binds
  | ports
  | links
  | hostConfig
  | demux
  | tail
  | logStatus
deriving DecidableEq, Repr

namespace Verb

/-- All verbs. -/
def all : List Verb := [binds, ports, links, hostConfig, demux, tail, logStatus]

/-- The group of the verb. -/
def group : Verb → String
  | binds => "parse"
  | ports => "parse"
  | links => "parse"
  | hostConfig => "parse"
  | demux => "stream"
  | tail => "stream"
  | logStatus => "stream"

/-- The name of the verb in its group. -/
def name : Verb → String
  | binds => "binds"
  | ports => "ports"
  | links => "links"
  | hostConfig => "host-config"
  | demux => "demux"
  | tail => "tail"
  | logStatus => "log-status"

/-- The verb with the given group and name. -/
def ofNames? (group name : Text) : Option Verb :=
  all.find? fun v => v.group.toList = group && v.name.toList = name

/-- The parameters that the verb knows. -/
def parameters : Verb → List Parameter
  | hostConfig => [.json, .binds, .ports, .links]
  | demux => [.json, .summary]
  | tail => [.json, .log, .whileExists, .pollInterval]
  | _ => [.json]

end Verb

/-- The only argument without a name. -/
def Arguments.single? (a : Arguments) : Option Text :=
  match a.positional with
  | [t] => some t
  | _ => Option.none

namespace Command

/-- A path, which must not be empty. -/
def path? (t : Text) : Option Text :=
  if t.isEmpty then none else some t

/-- A value that may be left out but not be wrong. -/
def optional? {α : Type} (read : Text → Option α) : Option Text → Option (Option α)
  | none => some none
  | some t => (read t).map some

/-- The variable that names the log of a tailer unless an argument does. -/
def logVariable : String := "BERTH_LOG"

/-- What a verb with some arguments asks for. -/
def ofArguments? (env : Environment) (a : Arguments) : Verb → Option Command
  | .binds => a.single?.map (.parse .bind)
  | .ports => a.single?.map (.parse .portBinding)
  | .links => a.single?.map (.parse .link)
  | .hostConfig =>
    if a.positional.isEmpty then
      some (.hostConfig (a.value? .binds) (a.value? .ports) (a.value? .links))
    else none
  | .demux => do return .demux (← path? (← a.single?)) (a.has .summary)
  | .tail => do
    let source ← a.single?
    let log ← path? (← (a.value? .log).or (env.text? logVariable))
    return .tail source log (← optional? path? (a.value? .whileExists))
      (← optional? Decimal.read64? (a.value? .pollInterval))
  | .logStatus => do return .logStatus (← path? (← a.single?))

end Command

namespace Invocation

/-- Cuts a command line at its first name; before it only the wish for JSON may stand, once. -/
def cutName? (json : Bool) : List Text → Option (Bool × Text × List Text)
  | [] => none
  | t :: rest =>
    match Argument.of t with
    | .value name => some (json, name, rest)
    | argument =>
      if argument.parameter? [.json] = some (.json, none) && !json then cutName? true rest else none

/-- What a command line asks for, if it makes sense.  The wish for JSON may stand at every level. -/
def read? (env : Environment) (arguments : List Text) : Option Invocation := do
  let (first, group, arguments) ← cutName? false arguments
  let (second, name, arguments) ← cutName? false arguments
  let verb ← Verb.ofNames? group name
  let a ← Arguments.scan verb.parameters arguments
  return ⟨first || second || a.has .json, ← Command.ofArguments? env a verb⟩

end Invocation

end BuildStep
