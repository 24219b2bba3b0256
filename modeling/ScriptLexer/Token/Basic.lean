import ScriptLexer.Literal
import ScriptLexer.Token.Keyword
import ScriptLexer.Token.Mark

/-!
# Tokens

A token is a lexeme together with its kind, the value it stands for and a line.  `Token.display` is its line in a token
listing.  Tokens are equal if their kinds, lexemes, literals and lines are, numbers compared by value.
-/

namespace ScriptLexer

/-- The kinds of tokens. -/
inductive Token.Kind where
  | mark (m : Mark)
  | identifier
  | string
  | number
  | keyword (k : Keyword)
  /-- The end of the script. -/
  | eof
deriving DecidableEq, Repr, Ord

/-- A token of a script. -/
structure Token where
  kind : Token.Kind
  /-- The part of the script that is the token, quotes included. -/
  lexeme : String
  /-- The value of a string or number. -/
  literal : Option Literal
  /-- The line on which the lexeme ends. -/
  line : Nat
deriving DecidableEq, Repr

namespace Token

namespace Kind

/-- All kinds, in their order. -/
def all : List Kind :=
  Mark.all.map .mark ++ [.identifier, .string, .number] ++ Keyword.all.map .keyword ++ [.eof]

/-- The name of a kind in token listings. -/
def name : Kind → String
  | .mark m => m.name
  | .identifier => "IDENTIFIER"
  | .string => "STRING"
  | .number => "NUMBER"
  | .keyword k => k.name
  | .eof => "EOF"

/-- The spelling of a keyword kind. -/
def keywordSpelling? : Kind → Option String
  | .keyword k => some k.spelling
  | _ => none

def isKeyword (k : Kind) : Bool :=
  k.keywordSpelling?.isSome

/-- The kind of a word: that of the keyword it spells, otherwise an identifier. -/
def ofWord (word : String) : Kind :=
  match Keyword.ofSpelling word with
  | .ok k => .keyword k
  | .error _ => .identifier

end Kind

/-- The token that ends every script. -/
def eof (line : Nat) : Token :=
  ⟨.eof, "", none, line⟩

/-- Equality of tokens, with numbers compared by value. -/
instance : BEq Token :=
  ⟨fun s t => s.kind == t.kind && s.lexeme == t.lexeme && s.literal == t.literal && s.line == t.line⟩

/-- The line of a token in a listing: line number, kind, lexeme and literal. -/
def display (t : Token) : String :=
  let literal := match t.literal with
    | some l => l.render
    | none => "No Literal"
  toString t.line ++ " " ++ t.kind.name ++ " " ++ t.lexeme ++ " " ++ literal

end Token

end ScriptLexer
