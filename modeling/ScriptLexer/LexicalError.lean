import ScriptLexer.Byte
import ScriptLexer.Diagnostic.Sink

/-!
# Lexical errors

What can be wrong with a script at this stage, and on which line.  Errors are ordered by cause, then by line, then by
the offending byte.
-/

namespace ScriptLexer

/-- A fault in a script. -/
inductive LexicalError where
  /-- The script ends inside a block comment; `line` is its last line. -/
  | openComment (line : Nat)
  /-- The script ends inside a string; `line` is its last line. -/
  | openString (line : Nat)
  /-- A byte that starts no lexeme. -/
  | strayByte (line : Nat) (byte : UInt8)
deriving DecidableEq, Repr, Ord

namespace LexicalError

def line : LexicalError → Nat
  | openComment n => n
  | openString n => n
  | strayByte n _ => n

def message : LexicalError → String
  | openComment _ => "block comment is not closed"
  | openString _ => "unterminated string"
  | strayByte _ b => "unexpected character: `" ++ Byte.escaped b ++ "`"

instance : Diagnostic LexicalError :=
  ⟨line, message⟩

/-- The byte of a stray byte. -/
def byte? : LexicalError → Option UInt8
  | strayByte _ b => some b
  | _ => none

/-- What is wrong, without the place. -/
inductive Cause where
  | openComment | openString | strayByte
deriving DecidableEq, Repr, Ord

def cause : LexicalError → Cause
  | openComment _ => .openComment
  | openString _ => .openString
  | strayByte _ _ => .strayByte

/-- The line of an error with the given cause; the error itself if it has another one. -/
def lineFor (c : Cause) (e : LexicalError) : Except LexicalError Nat :=
  if e.cause = c then .ok e.line else .error e

end LexicalError

end ScriptLexer
