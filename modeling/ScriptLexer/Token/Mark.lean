import ScriptLexer.Text

/-!
# Marks

A mark is a punctuation mark or an operator.  `Mark.longest?` finds the longest mark that a list of bytes starts with,
so `!=` is one mark and not two.
-/

namespace ScriptLexer

/-- A punctuation mark or operator. -/
inductive Mark where
  | leftParen | rightParen | leftBrace | rightBrace
  | colon | comma | dot | question | semicolon | slash | star
  | bang | bangEqual | equal | equalEqual | greater | greaterEqual | less | lessEqual
  | minus | minusMinus | plus | plusPlus
deriving DecidableEq, Repr, Ord

namespace Mark

/-- All marks, in their order. -/
def all : List Mark :=
  [leftParen, rightParen, leftBrace, rightBrace, colon, comma, dot, question, semicolon, slash, star,
    bang, bangEqual, equal, equalEqual, greater, greaterEqual, less, lessEqual, minus, minusMinus, plus, plusPlus]

/-- How a mark is written in a script. -/
def spelling : Mark → String
  | leftParen => "("
  | rightParen => ")"
  | leftBrace => "\x7b"
  | rightBrace => "\x7d"
  | colon => ":"
  | comma => ","
  | dot => "."
  | question => "?"
  | semicolon => ";"
  | slash => "/"
  | star => "*"
  | bang => "!"
  | bangEqual => "!="
  | equal => "="
  | equalEqual => "=="
  | greater => ">"
  | greaterEqual => ">="
  | less => "<"
  | lessEqual => "<="
  | minus => "-"
  | minusMinus => "--"
  | plus => "+"
  | plusPlus => "++"

/-- The name of a mark in token listings. -/
def name : Mark → String
  | leftParen => "LEFT_PAREN"
  | rightParen => "RIGHT_PAREN"
  | leftBrace => "LEFT_BRACE"
  | rightBrace => "RIGHT_BRACE"
  | colon => "COLON"
  | comma => "COMMA"
  | dot => "DOT"
  | question => "QUESTION"
  | semicolon => "SEMICOLON"
  | slash => "SLASH"
  | star => "STAR"
  | bang => "BANG"
  | bangEqual => "BANG_EQUAL"
  | equal => "EQUAL"
  | equalEqual => "EQUAL_EQUAL"
  | greater => "GREATER"
  | greaterEqual => "GREATER_EQUAL"
  | less => "LESS"
  | lessEqual => "LESS_EQUAL"
  | minus => "MINUS"
  | minusMinus => "MINUS_MINUS"
  | plus => "PLUS"
  | plusPlus => "PLUS_PLUS"

/-- The bytes of a mark. -/
def bytes (m : Mark) : List UInt8 :=
  Text.bytes m.spelling

/-- The marks with their bytes. -/
def table : List (List UInt8 × Mark) :=
  all.map fun m => (m.bytes, m)

/-- The mark with the given bytes. -/
def ofBytes? (bs : List UInt8) : Option Mark :=
  table.lookup bs

/-- The longest mark that the bytes start with.  No mark is longer than two bytes. -/
def longest? (bs : List UInt8) : Option Mark :=
  (ofBytes? (bs.take 2)).or (ofBytes? (bs.take 1))

theorem mem_all (m : Mark) : m ∈ all := by
  cases m <;> decide

theorem length_bytes (m : Mark) : m.bytes.length = 1 ∨ m.bytes.length = 2 := by
  cases m <;> decide

theorem ofBytes?_eq_some_iff {bs : List UInt8} {m : Mark} : ofBytes? bs = some m ↔ m.bytes = bs := by
  constructor
  · intro h
    obtain ⟨_, _, e, _⟩ := List.lookup_eq_some_iff.1 h
    have : (bs, m) ∈ table := by simp [e]
    obtain ⟨_, _, e⟩ := List.mem_map.1 this
    cases e
    rfl
  · rintro rfl
    cases m <;> decide

theorem bytes_prefix_of_longest? {bs : List UInt8} {m : Mark} (h : longest? bs = some m) : m.bytes <+: bs := by
  obtain h | ⟨_, h⟩ := Option.or_eq_some_iff.1 h
  all_goals
    rw [ofBytes?_eq_some_iff.1 h]
    exact List.take_prefix _ _

end Mark

end ScriptLexer
