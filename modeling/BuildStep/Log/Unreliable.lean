import BuildStep.Log.Sink

/-! # A log whose calls fail by plan

An `UnreliableLog` stands in front of another log and lets chosen calls fail without passing them
on.  Calls of each kind are counted from one. -/

namespace BuildStep

/-- The kinds of calls of a writer. -/
inductive LogCall.Kind
  | append
  | flush
  | finalize
deriving DecidableEq, Repr

namespace LogCall

/-- The kind of a call. -/
def kind : LogCall → Kind
  | .append _ => .append
  | .flush => .flush
  | .finalize => .finalize

/-- The name of a kind of calls. -/
def Kind.name : Kind → String
  | .append => "append"
  | .flush => "flush"
  | .finalize => "finalize"

end LogCall

/-- A log, the calls of it that fail, and the calls made so far. -/
structure UnreliableLog (σ : Type) where
  log : σ
  /-- Which calls of a kind fail, by number. -/
  failing : LogCall.Kind → List Nat
  /-- How many calls of a kind were made. -/
  made : LogCall.Kind → Nat

namespace UnreliableLog

variable {σ : Type}

/-- The error of a call that was to fail. -/
def plannedError (kind : LogCall.Kind) : IoError :=
  ⟨.other, s!"injected {kind.name} failure"⟩

/-- Makes a call: it fails if it was to, and is passed on otherwise. -/
def call [LogSink σ] (u : UnreliableLog σ) (c : LogCall) :
    Except IoError Unit × UnreliableLog σ :=
  let number := u.made c.kind + 1
  let counted := { u with made := fun k => if k = c.kind then number else u.made k }
  if (u.failing c.kind).contains number then (.error (plannedError c.kind), counted)
  else
    let (result, log) := c.perform u.log
    (result, { counted with log := log })

instance [LogSink σ] : LogSink (UnreliableLog σ) where
  append u t := u.call (.append t)
  flush u := u.call .flush
  finalize u := u.call .finalize
  isLive u := LogSink.isLive u.log

end UnreliableLog

end BuildStep
