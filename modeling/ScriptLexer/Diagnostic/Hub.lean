import ScriptLexer.Diagnostic.Reporter
import ScriptLexer.TokenStream

/-!
# A hub of sinks

A reporter, a storage, a counter and a discarding sink side by side.  A command goes to some of them and the others
keep what they have.
-/

namespace ScriptLexer

/-- A choice of sinks. -/
structure Selection where
  reporter : Bool
  storage : Bool
  counter : Bool
  discard : Bool
deriving DecidableEq, Repr

/-- One sink of each sort; the storage holds lexical errors. -/
structure Hub where
  reporter : Reporter := {}
  storage : Storage LexicalError := {}
  counter : Counter := {}
  discard : Discard := {}
deriving DecidableEq, Repr

namespace Hub

/-- What can be asked of a hub. -/
inductive Command where
  /-- Reports a text to the reporter. -/
  | report (line : Nat) (message : String)
  /-- Hands a lexical error to the selected sinks. -/
  | receive (sinks : Selection) (e : LexicalError)
  /-- Hands a notice to the selected sinks, the storage excepted. -/
  | notify (sinks : Selection) (n : Notice)
  /-- Tokenizes a script into each of the selected sinks. -/
  | tokenize (sinks : Selection) (source : String)
  /-- Resets the reporter and the counter if they are selected. -/
  | reset (sinks : Selection)
  /-- Takes all errors out of the storage. -/
  | take
  /-- Writes the reporter's log to a new buffer. -/
  | write (capacity : Option Nat)
deriving DecidableEq, Repr

/-- The answer to a command. -/
inductive Reply where
  | done
  | tokens (s : TokenStream)
  | errors (es : Array LexicalError)
  | written (contents : Array UInt8) (error : Option WriteError)
deriving DecidableEq, Repr

/-- The hub after the selected sinks have received a lexical error. -/
def receive (h : Hub) (sinks : Selection) (e : LexicalError) : Hub where
  reporter := if sinks.reporter then Sink.receive h.reporter e else h.reporter
  storage := if sinks.storage then Sink.receive h.storage e else h.storage
  counter := if sinks.counter then Sink.receive h.counter e else h.counter
  discard := if sinks.discard then Sink.receive h.discard e else h.discard

/-- The hub after the selected sinks have received a notice. -/
def notify (h : Hub) (sinks : Selection) (n : Notice) : Hub :=
  { h with
    reporter := if sinks.reporter then Sink.receive h.reporter n else h.reporter
    counter := if sinks.counter then Sink.receive h.counter n else h.counter
    discard := if sinks.discard then Sink.receive h.discard n else h.discard }

/-- The hub after a script has been tokenized into each of the selected sinks. -/
def tokenize (h : Hub) (sinks : Selection) (source : String) : Hub where
  reporter := if sinks.reporter then (ScriptLexer.tokenize source h.reporter).2 else h.reporter
  storage := if sinks.storage then (ScriptLexer.tokenize source h.storage).2 else h.storage
  counter := if sinks.counter then (ScriptLexer.tokenize source h.counter).2 else h.counter
  discard := if sinks.discard then (ScriptLexer.tokenize source h.discard).2 else h.discard

/-- The hub after the selected sinks have been reset. -/
def reset (h : Hub) (sinks : Selection) : Hub :=
  { h with
    reporter := if sinks.reporter then h.reporter.reset else h.reporter
    counter := if sinks.counter then h.counter.reset else h.counter }

/-- Carries out a command. -/
def run (h : Hub) : Command → Hub × Reply
  | .report line message => ({ h with reporter := h.reporter.report line message }, .done)
  | .receive sinks e => (h.receive sinks e, .done)
  | .notify sinks n => (h.notify sinks n, .done)
  | .tokenize sinks source => (h.tokenize sinks source, .tokens (ScriptLexer.tokenize source h.discard).1)
  | .reset sinks => (h.reset sinks, .done)
  | .take => ({ h with storage := {} }, .errors h.storage.errors)
  | .write capacity =>
    let (buffer, error) := h.reporter.writeTo { capacity }
    (h, .written buffer.contents error)

end Hub

end ScriptLexer
