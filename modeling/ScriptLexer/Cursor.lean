import ScriptLexer.Byte
import ScriptLexer.Token.Mark

/-!
# A cursor on the bytes of a script

A cursor reads a script byte by byte.  It knows where the piece it is in began, where it stands, the line it is on, and
which loop it is in; between two pieces it is in none.  Each of its steps begins a piece or goes one round of a loop,
and looks at no more than two bytes.  The line is counted where a line feed is passed: as a blank, in a string, or in a
block comment.
-/

namespace ScriptLexer

/-- What a cursor passes over in a loop. -/
inductive Cursor.Loop where
  | lineComment
  /-- `depth` counts the open comments around the innermost one. -/
  | blockComment (depth : Nat)
  | string
  /-- The digits of a number before its point. -/
  | whole
  | fraction
  | word
deriving DecidableEq, Repr

/-- What the beginning of a piece or a round of a loop does. -/
structure Cursor.Move where
  /-- The number of bytes that are passed. -/
  bytes : Nat
  /-- The number of lines that are counted. -/
  lines : Nat
  /-- The loop after the move, if the piece goes on. -/
  loop : Option Cursor.Loop
deriving DecidableEq, Repr

/-- Where a cursor is.  All offsets count bytes. -/
structure Cursor where
  /-- The offset at which the piece begins. -/
  start : Nat
  /-- The offset of the next byte. -/
  current : Nat
  /-- The running line. -/
  line : Nat
  loop : Option Cursor.Loop
deriving DecidableEq, Repr

namespace Cursor

/-- The number of lines that a byte ends. -/
def lineFeeds (b : UInt8) : Nat :=
  if b == Byte.newline then 1 else 0

/-- A round of a loop.  A delimiter of a block comment takes both of its bytes; a line comment leaves the line feed. -/
def Loop.round : Loop → List UInt8 → Move
  | _, [] => ⟨0, 0, none⟩
  | lineComment, b :: _ => if b != Byte.newline then ⟨1, 0, some lineComment⟩ else ⟨0, 0, none⟩
  | blockComment depth, [b] => ⟨1, lineFeeds b, some (blockComment depth)⟩
  | blockComment depth, a :: b :: _ =>
    if a == Byte.slash && b == Byte.star then ⟨2, 0, some (blockComment (depth + 1))⟩
    else if a == Byte.star && b == Byte.slash then
      ⟨2, 0, if depth = 0 then none else some (blockComment (depth - 1))⟩
    else ⟨1, lineFeeds a, some (blockComment depth)⟩
  | string, b :: _ => if b == Byte.quote then ⟨1, 0, none⟩ else ⟨1, lineFeeds b, some string⟩
  | whole, b :: r =>
    if Byte.isDigit b then ⟨1, 0, some whole⟩
    else if b == Byte.dot && r.head?.any Byte.isDigit then ⟨1, 0, some fraction⟩
    else ⟨0, 0, none⟩
  | fraction, b :: _ => if Byte.isDigit b then ⟨1, 0, some fraction⟩ else ⟨0, 0, none⟩
  | word, b :: _ => if Byte.isWordByte b then ⟨1, 0, some word⟩ else ⟨0, 0, none⟩

/-- A mark of two bytes if `second` is the next one, and of one byte otherwise; with its length. -/
def either (second : UInt8) (matched single : Mark) (r : List UInt8) : Nat × Mark :=
  if r.head? == some second then (2, matched) else (1, single)

/-- The mark that begins with the byte `b`, with its length. -/
def mark? (b : UInt8) (r : List UInt8) : Option (Nat × Mark) :=
  match b with
  | 0x28 => some (1, .leftParen)
  | 0x29 => some (1, .rightParen)
  | 0x7B => some (1, .leftBrace)
  | 0x7D => some (1, .rightBrace)
  | 0x3A => some (1, .colon)
  | 0x2C => some (1, .comma)
  | 0x2E => some (1, .dot)
  | 0x3F => some (1, .question)
  | 0x3B => some (1, .semicolon)
  | 0x2A => some (1, .star)
  | 0x2F => some (1, .slash)
  | 0x21 => some (either 0x3D .bangEqual .bang r)
  | 0x3D => some (either 0x3D .equalEqual .equal r)
  | 0x3E => some (either 0x3D .greaterEqual .greater r)
  | 0x3C => some (either 0x3D .lessEqual .less r)
  | 0x2D => some (either 0x2D .minusMinus .minus r)
  | 0x2B => some (either 0x2B .plusPlus .plus r)
  | _ => none

/-- The beginning of a piece: the bytes that say what it is, and the loop that reads the others. -/
def opening (b : UInt8) (r : List UInt8) : Move :=
  if Byte.isBlank b then ⟨1, lineFeeds b, none⟩
  else if Byte.isDigit b then ⟨1, 0, some .whole⟩
  else if Byte.isWordStart b then ⟨1, 0, some .word⟩
  else if b == Byte.quote then ⟨1, 0, some .string⟩
  else if b == Byte.slash && r.head? == some Byte.slash then ⟨2, 0, some .lineComment⟩
  else if b == Byte.slash && r.head? == some Byte.star then ⟨2, 0, some (.blockComment 0)⟩
  else
    match mark? b r with
    | some (n, _) => ⟨n, 0, none⟩
    | none => ⟨1, 0, none⟩

/-- The cursor after a move, in a piece that begins at `start`. -/
def move (c : Cursor) (start : Nat) (m : Move) : Cursor :=
  ⟨start, c.current + m.bytes, c.line + m.lines, m.loop⟩

@[simp] theorem move_start (c : Cursor) (start : Nat) (m : Move) : (c.move start m).start = start := rfl

@[simp] theorem move_current (c : Cursor) (start : Nat) (m : Move) :
    (c.move start m).current = c.current + m.bytes := rfl

@[simp] theorem move_line (c : Cursor) (start : Nat) (m : Move) : (c.move start m).line = c.line + m.lines := rfl

@[simp] theorem move_loop (c : Cursor) (start : Nat) (m : Move) : (c.move start m).loop = m.loop := rfl

/-- One step on the bytes of a script.  There is none from a cursor that is between two pieces at the end. -/
def step (bs : List UInt8) (c : Cursor) : Option Cursor :=
  match c.loop with
  | some l => some (c.move c.start (l.round (bs.drop c.current)))
  | none =>
    match bs.drop c.current with
    | [] => none
    | b :: r => some (c.move c.current (opening b r))

/-- The cursor before the first step. -/
def initial : Cursor :=
  ⟨0, 0, 1, none⟩

end Cursor

end ScriptLexer
