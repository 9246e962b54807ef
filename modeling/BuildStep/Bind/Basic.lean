import BuildStep.Text.Basic

/-! # Bind mounts

A bind mount shows a path of the host inside a container. -/

namespace BuildStep

/-- What a container may do with a mounted path. -/
inductive AccessMode
  | readOnly
  | readWrite
  /-- Nothing was asked for; the engine decides. -/
  | unspecified
deriving DecidableEq, Repr

namespace AccessMode

/-- How a mode is written in a record. -/
def token? : AccessMode → Option Text
  | .readOnly => some ['r', 'o']
  | .readWrite => some ['r', 'w']
  | .unspecified => none

/-- The mode that is written in a record as the given token. -/
def ofToken? (t : Text) : Option AccessMode :=
  if t = ['r', 'o'] then some .readOnly
  else if t = ['r', 'w'] then some .readWrite
  else none

end AccessMode

/-- A path of the host and the path under which a container sees it. -/
structure Bind where
  hostPath : Text
  containerPath : Text
  mode : AccessMode
deriving DecidableEq, Repr

/-- The form that an engine reads: `host:container[:mode]`. -/
def Bind.render (b : Bind) : Text :=
  b.hostPath ++ ':' :: b.containerPath ++
    match b.mode.token? with
    | some t => ':' :: t
    | none => []

end BuildStep
