import BuildStep.Text.Basic

/-! # Links between containers -/

namespace BuildStep

/-- Another container, and the name under which a container knows it. -/
structure Link where
  /-- Name or identifier of the other container. -/
  name : Text
  knownAs : Text
deriving DecidableEq, Repr

/-- The form that an engine reads: `name:alias`. -/
def Link.render (l : Link) : Text :=
  l.name ++ ':' :: l.knownAs

end BuildStep
