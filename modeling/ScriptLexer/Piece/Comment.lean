import ScriptLexer.Byte

/-!
# Block comments

Block comments nest.  Inside one, the bytes are read from left to right, and a delimiter takes both of its bytes, so
that `/*/` opens a comment and does not close it.
-/

namespace ScriptLexer.Piece

/-- The length of a block comment, given the bytes after its first `n` bytes, or `none` if they do not close it.
`depth` counts the open comments around the innermost one. -/
def commentLength? (depth n : Nat) : List UInt8 → Option Nat
  | [] => none
  | [_] => none
  | a :: b :: r =>
    if a == Byte.slash && b == Byte.star then commentLength? (depth + 1) (n + 2) r
    else if a == Byte.star && b == Byte.slash then
      if depth = 0 then some (n + 2) else commentLength? (depth - 1) (n + 2) r
    else commentLength? depth (n + 1) (b :: r)

/-- A comment is longer than what was read of it and no longer than the bytes. -/
theorem commentLength?_bounds {depth n k : Nat} {bs : List UInt8} (h : commentLength? depth n bs = some k) :
    n < k ∧ k ≤ n + bs.length := by
  fun_induction commentLength? depth n bs with
  | case1 => cases h
  | case2 => cases h
  | case3 depth n a b r _ ih =>
    have := ih h
    simp only [List.length_cons]
    omega
  | case4 n a b r =>
    cases h
    simp only [List.length_cons]
    omega
  | case5 depth n a b r _ _ _ ih =>
    have := ih h
    simp only [List.length_cons]
    omega
  | case6 depth n a b r _ _ ih =>
    have := ih h
    simp only [List.length_cons] at this ⊢
    omega

end ScriptLexer.Piece
