/-!
# Keywords

The reserved words of the language.  A word is a keyword only if all of it is the keyword's spelling.
-/

namespace ScriptLexer

/-- A reserved word. -/
inductive Keyword where
  | and | «class» | else | false | fun | for | if | nil | or | print | return | super | this | true | var | while
deriving DecidableEq, Repr, Ord

/-- The complaint about a word that is no keyword. -/
structure NotAKeyword where
  word : String
deriving DecidableEq, Repr

def NotAKeyword.message (_ : NotAKeyword) : String :=
  "invalid string representation of keyword."

namespace Keyword

/-- All keywords, in their order. -/
def all : List Keyword :=
  [.and, .class, .else, .false, .fun, .for, .if, .nil, .or, .print, .return, .super, .this, .true, .var, .while]

/-- How a keyword is written in a script. -/
def spelling : Keyword → String
  | .and => "and"
  | .class => "class"
  | .else => "else"
  | .false => "false"
  | .fun => "fun"
  | .for => "for"
  | .if => "if"
  | .nil => "nil"
  | .or => "or"
  | .print => "print"
  | .return => "return"
  | .super => "super"
  | .this => "this"
  | .true => "true"
  | .var => "var"
  | .while => "while"

/-- The name of a keyword in token listings. -/
def name : Keyword → String
  | .and => "AND"
  | .class => "CLASS"
  | .else => "ELSE"
  | .false => "FALSE"
  | .fun => "FUN"
  | .for => "FOR"
  | .if => "IF"
  | .nil => "NIL"
  | .or => "OR"
  | .print => "PRINT"
  | .return => "RETURN"
  | .super => "SUPER"
  | .this => "THIS"
  | .true => "TRUE"
  | .var => "VAR"
  | .while => "WHILE"

/-- The keyword spelled as the given word. -/
def ofSpelling (word : String) : Except NotAKeyword Keyword :=
  match all.find? (·.spelling == word) with
  | some k => .ok k
  | none => .error ⟨word⟩

theorem mem_all (k : Keyword) : k ∈ all := by
  cases k <;> decide

end Keyword

end ScriptLexer
