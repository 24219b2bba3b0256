import ScriptLexer.Terminal.Style

/-!
# Log messages

A log message is shown as a header in bold and the colour of its severity, a space, and its text in bold.
-/

namespace ScriptLexer.Terminal

/-- How grave a message is. -/
inductive Severity where
  | error | info | warning
deriving DecidableEq, Repr, Ord

namespace Severity

def header : Severity → String
  | error => "[error]:"
  | info => "[info]:"
  | warning => "[warning]:"

def color : Severity → Color
  | error => .red
  | info => .green
  | warning => .yellow

end Severity

/-- A log message.  Messages are ordered by severity, then by text. -/
structure Message where
  severity : Severity
  text : String
deriving DecidableEq, Repr, Ord

namespace Message

/-- The fragments in which a message is shown. -/
def fragments (m : Message) : List String :=
  styled m.severity.header [.color m.severity.color, .bold] ++ " " :: styled m.text [.bold]

/-- A message as it is shown. -/
def render (m : Message) : String :=
  String.join m.fragments

end Message

end ScriptLexer.Terminal
