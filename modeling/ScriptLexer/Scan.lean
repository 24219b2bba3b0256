import ScriptLexer.Piece.Basic

/-!
# Scanning a script

A scan runs through the pieces of a script and counts lines.  Every piece gives at most one token or error, which is
put on the line on which the piece ends.
-/

namespace ScriptLexer

/-- What is known of a script after some of its pieces. -/
structure Scan where
  /-- The line on which the pieces end. -/
  line : Nat := 1
  tokens : Array Token := #[]
  errors : Array LexicalError := #[]
deriving DecidableEq, Repr

namespace Scan

/-- The scan with one more piece. -/
def step (s : Scan) (p : Piece) : Scan :=
  let line := s.line + p.newlines
  { line
    tokens := match p.token? line with
      | some t => s.tokens.push t
      | none => s.tokens
    errors := match p.error? line with
      | some e => s.errors.push e
      | none => s.errors }

/-- The scan of a whole script. -/
def ofSource (source : String) : Scan :=
  (Piece.ofBytes (Text.bytes source)).foldl step {}

end Scan

end ScriptLexer
