import ScriptLexer.Binary64.Decimal

/-!
# Literals

A string or number token carries the value it stands for.  Texts come before numbers in the order of literals, texts
are ordered by their characters, and numbers by value.
-/

namespace ScriptLexer

/-- The value of a string or number token. -/
inductive Literal where
  /-- The text between the quotes of a string. -/
  | text (s : String)
  /-- The value of a numeral. -/
  | number (x : Binary64)
deriving DecidableEq, Repr

namespace Literal

def text? : Literal → Option String
  | text s => some s
  | number _ => none

def number? : Literal → Option Binary64
  | text _ => none
  | number x => some x

/-- The text of a literal; the literal itself if it is a number. -/
def toText : Literal → Except Literal String
  | text s => .ok s
  | number x => .error (number x)

/-- The number of a literal; the literal itself if it is a text. -/
def toNumber : Literal → Except Literal Binary64
  | text s => .error (text s)
  | number x => .ok x

/-- Appends to a text and leaves a number as it is. -/
def append (s : String) : Literal → Literal
  | text t => text (t ++ s)
  | number x => number x

/-- Replaces a number and leaves a text as it is. -/
def setNumber (y : Binary64) : Literal → Literal
  | text t => text t
  | number _ => number y

/-- A text as it is, a number in decimal. -/
def render : Literal → String
  | text s => s
  | number x => x.render

/-- The order of two literals, or `none` if both are numbers and one of them is not a number by value. -/
def compare? : Literal → Literal → Option Ordering
  | text s, text t => some (compare s t)
  | text _, number _ => some .lt
  | number _, text _ => some .gt
  | number x, number y => x.compare? y

/-- Equality by value: numbers are compared as numbers, so a literal that holds no number by value is not equal to
itself. -/
instance : BEq Literal where
  beq
    | text s, text t => s == t
    | number x, number y => x == y
    | _, _ => false

end Literal

end ScriptLexer
