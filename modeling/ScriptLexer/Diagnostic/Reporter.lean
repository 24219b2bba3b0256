import ScriptLexer.Buffer
import ScriptLexer.Diagnostic.Sink
import ScriptLexer.Terminal.Message
import ScriptLexer.Text

/-!
# The reporter

The reporter is the sink for people: it keeps every diagnostic as a text with its line, remembers whether there was
one, and writes its log, one error message a line.
-/

namespace ScriptLexer

open Terminal

/-- Whether something has been reported. -/
inductive Status where
  | ok | error
deriving DecidableEq, Repr, Ord

/-- Keeps the texts of diagnostics in the order in which they came. -/
structure Reporter where
  messages : Array String := #[]
  status : Status := .ok
deriving DecidableEq, Repr

namespace Reporter

/-- The text that is kept of a diagnostic. -/
def entry (line : Nat) (message : String) : String :=
  "line " ++ toString line ++ ": " ++ message

/-- The reporter after a report. -/
def report (r : Reporter) (line : Nat) (message : String) : Reporter :=
  ⟨r.messages.push (entry line message), .error⟩

instance {ε : Type} [Diagnostic ε] : Sink Reporter ε :=
  ⟨fun r e => r.report (Diagnostic.line e) (Diagnostic.message e)⟩

def hasErrors (r : Reporter) : Bool :=
  r.status == .error

/-- Forgets all reports. -/
def reset (_ : Reporter) : Reporter :=
  {}

/-- The fragments of the log. -/
def fragments (r : Reporter) : List String :=
  r.messages.toList.flatMap fun text => (Message.mk .error text).fragments ++ ["\n"]

/-- Writes the log to a buffer, up to the first failure. -/
def writeTo (r : Reporter) (b : Buffer) : Buffer × Option WriteError :=
  b.writeAll (r.fragments.map Text.bytes)

end Reporter

end ScriptLexer
