import ScriptLexer.LexicalError
import ScriptLexer.Numeral
import ScriptLexer.Piece.Cut
import ScriptLexer.Token.Basic

/-!
# The pieces of a script

`Piece.ofBytes` cuts bytes into pieces from left to right.  No byte is lost (`Piece.flatten_ofBytes`) and no piece is
empty (`Piece.bytes_ne_nil_of_mem`).  A piece stands for a token, for an error, or for neither.
-/

namespace ScriptLexer

/-- A piece of a script. -/
structure Piece where
  shape : Piece.Shape
  bytes : List UInt8
deriving DecidableEq, Repr

namespace Piece

/-- The first piece of `b :: r`. -/
def first (b : UInt8) (r : List UInt8) : Piece :=
  ⟨(cut b r).1, (b :: r).take (cut b r).2⟩

/-- The bytes of `b :: r` after its first piece. -/
def rest (b : UInt8) (r : List UInt8) : List UInt8 :=
  (b :: r).drop (cut b r).2

theorem bytes_first_append_rest (b : UInt8) (r : List UInt8) : (first b r).bytes ++ rest b r = b :: r :=
  List.take_append_drop _ _

theorem bytes_first_ne_nil (b : UInt8) (r : List UInt8) : (first b r).bytes ≠ [] := by
  simp [first, Nat.ne_of_gt (cut_pos b r)]

theorem length_rest_lt (b : UInt8) (r : List UInt8) : (rest b r).length < (b :: r).length := by
  have := cut_pos b r
  simp only [rest, List.length_drop, List.length_cons]
  omega

/-- What holds of no bytes, and of bytes whenever it holds of those after the first piece, holds of all bytes. -/
@[elab_as_elim] theorem inductionOnRest {motive : List UInt8 → Prop} (nil : motive [])
    (cons : ∀ b r, motive (rest b r) → motive (b :: r)) : (bs : List UInt8) → motive bs
  | [] => nil
  | b :: r => cons b r (inductionOnRest nil cons (rest b r))
termination_by bs => bs.length
decreasing_by exact length_rest_lt b r

/-- The pieces of the bytes, after those found so far. -/
private def cutAll (found : Array Piece) : List UInt8 → List Piece
  | [] => found.toList
  | b :: r => cutAll (found.push (first b r)) (rest b r)
termination_by bs => bs.length
decreasing_by exact length_rest_lt b r

/-- Cuts the bytes into pieces. -/
def ofBytes (bs : List UInt8) : List Piece :=
  cutAll #[] bs

private theorem cutAll_eq (bs : List UInt8) (found : Array Piece) :
    cutAll found bs = found.toList ++ ofBytes bs := by
  induction bs using inductionOnRest generalizing found with
  | nil => simp [ofBytes, cutAll]
  | cons b r ih =>
    rw [ofBytes, cutAll, cutAll, ih, ih]
    simp

@[simp] theorem ofBytes_nil : ofBytes [] = [] := by
  simp [ofBytes, cutAll]

theorem ofBytes_cons (b : UInt8) (r : List UInt8) : ofBytes (b :: r) = first b r :: ofBytes (rest b r) := by
  rw [ofBytes, cutAll, cutAll_eq]
  rfl

theorem flatten_ofBytes (bs : List UInt8) : ((ofBytes bs).map bytes).flatten = bs := by
  induction bs using inductionOnRest with
  | nil => simp
  | cons b r ih => simp [ofBytes_cons, ih, bytes_first_append_rest]

theorem bytes_ne_nil_of_mem {bs : List UInt8} {p : Piece} (h : p ∈ ofBytes bs) : p.bytes ≠ [] := by
  induction bs using inductionOnRest with
  | nil => simp at h
  | cons b r ih =>
    rw [ofBytes_cons, List.mem_cons] at h
    obtain rfl | h := h
    · exact bytes_first_ne_nil b r
    · exact ih h

/-- The number of line feeds in a piece. -/
def newlines (p : Piece) : Nat :=
  p.bytes.count Byte.newline

/-- The token that a piece stands for; `line` is the line on which the piece ends. -/
def token? (line : Nat) (p : Piece) : Option Token :=
  match p.shape with
  | .mark m => do
    let lexeme ← Text.ofBytes? p.bytes
    return ⟨.mark m, lexeme, none, line⟩
  | .word => do
    let lexeme ← Text.ofBytes? p.bytes
    return ⟨.ofWord lexeme, lexeme, none, line⟩
  | .number => do
    let lexeme ← Text.ofBytes? p.bytes
    let numeral ← Numeral.ofBytes? p.bytes
    return ⟨.number, lexeme, some (.number numeral.toBinary64), line⟩
  | .string => do
    let lexeme ← Text.ofBytes? p.bytes
    let text ← Text.ofBytes? p.bytes.tail.dropLast
    return ⟨.string, lexeme, some (.text text), line⟩
  | _ => none

/-- The error that a piece stands for; `line` is the line on which the piece ends. -/
def error? (line : Nat) (p : Piece) : Option LexicalError :=
  match p.shape with
  | .stray b => some (.strayByte line b)
  | .openString => some (.openString line)
  | .openComment => some (.openComment line)
  | _ => none

end Piece

end ScriptLexer
