/-!
# Diagnostics and their sinks

Faults do not stop the reading of a script: each is handed to a sink, and the reading goes on.  A sink may keep the
diagnostics (`Storage`), count them (`Counter`) or ignore them (`Discard`).
-/

namespace ScriptLexer

/-- What is attached to a line of a script and can be shown. -/
class Diagnostic (ε : Type) where
  line : ε → Nat
  message : ε → String

/-- A free text on a line. -/
structure Notice where
  line : Nat
  text : String
deriving DecidableEq, Repr

instance : Diagnostic Notice :=
  ⟨Notice.line, Notice.text⟩

/-- A taker of diagnostics. -/
class Sink (σ ε : Type) where
  /-- The sink after one more diagnostic. -/
  receive : σ → ε → σ

/-- The sink after some more diagnostics, in their order. -/
def Sink.receiveAll {σ ε : Type} [Sink σ ε] (s : σ) (es : Array ε) : σ :=
  es.foldl Sink.receive s

/-- Keeps the diagnostics in the order in which they came. -/
structure Storage (ε : Type) where
  errors : Array ε := #[]
deriving DecidableEq, Repr

instance {ε : Type} : Sink (Storage ε) ε :=
  ⟨fun s e => ⟨s.errors.push e⟩⟩

/-- Counts the diagnostics. -/
structure Counter where
  count : Nat := 0
deriving DecidableEq, Repr

instance {ε : Type} : Sink Counter ε :=
  ⟨fun s _ => ⟨s.count + 1⟩⟩

/-- Counts from zero again. -/
def Counter.reset (_ : Counter) : Counter :=
  {}

/-- Ignores the diagnostics. -/
structure Discard where
deriving DecidableEq, Repr

instance {ε : Type} : Sink Discard ε :=
  ⟨fun s _ => s⟩

end ScriptLexer
