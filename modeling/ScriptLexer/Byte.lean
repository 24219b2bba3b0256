/-!
# Bytes of a script

The scanner reads the UTF-8 bytes of a script.  Only ASCII bytes mean something to it; every byte of a character
beyond ASCII is at least `0x80` and belongs to none of the classes below.  `Byte.escaped` writes a byte as printable
ASCII.
-/

namespace ScriptLexer.Byte

abbrev newline : UInt8 := 0x0A
abbrev quote : UInt8 := 0x22
abbrev star : UInt8 := 0x2A
abbrev dot : UInt8 := 0x2E
abbrev slash : UInt8 := 0x2F

/-- Space, tab, carriage return and line feed. -/
def isBlank (b : UInt8) : Bool :=
  b == 0x20 || b == 0x09 || b == 0x0D || b == newline

/-- The digits `0` to `9`. -/
def isDigit (b : UInt8) : Bool :=
  0x30 ≤ b && b ≤ 0x39

/-- The ASCII letters and the underscore. -/
def isWordStart (b : UInt8) : Bool :=
  (0x41 ≤ b && b ≤ 0x5A) || (0x61 ≤ b && b ≤ 0x7A) || b == 0x5F

/-- What may follow the first byte of a word: ASCII letters, digits and the underscore. -/
def isWordByte (b : UInt8) : Bool :=
  isWordStart b || isDigit b

/-- The value of a decimal digit. -/
def digitValue (b : UInt8) : Nat :=
  b.toNat - 0x30

/-- A byte as printable ASCII: tab, carriage return, line feed, both quotes and the backslash by a backslash and one
character, printable bytes as themselves, all others as `\x` and two lower-case hexadecimal digits. -/
def escaped (b : UInt8) : String :=
  match b with
  | 0x09 => "\\t"
  | 0x0D => "\\r"
  | 0x0A => "\\n"
  | 0x27 => "\\'"
  | 0x22 => "\\\""
  | 0x5C => "\\\\"
  | _ =>
    if 0x20 ≤ b && b ≤ 0x7E then String.singleton (Char.ofUInt8 b)
    else String.ofList ['\\', 'x', Nat.digitChar (b.toNat / 16), Nat.digitChar (b.toNat % 16)]

end ScriptLexer.Byte
