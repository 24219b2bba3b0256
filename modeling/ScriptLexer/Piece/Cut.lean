import ScriptLexer.Piece.Comment
import ScriptLexer.Token.Mark

/-!
# Cutting off a piece

A script is a sequence of pieces: lexemes, blanks, comments and faults.  `Piece.cut` finds the first piece of a
non-empty list of bytes.  A piece is as long as its shape allows, has at least one byte (`Piece.cut_pos`) and is no
longer than the bytes (`Piece.cut_le`).
-/

namespace ScriptLexer.Piece

/-- What a piece of a script can be. -/
inductive Shape where
  | mark (m : Mark)
  /-- An identifier or a keyword. -/
  | word
  | number
  | string
  /-- One blank byte. -/
  | blank
  /-- A comment that ends before a line feed or at the end of the script. -/
  | lineComment
  | blockComment
  /-- A byte that starts no other piece. -/
  | stray (b : UInt8)
  /-- A string without its closing quote, which takes the rest of the script. -/
  | openString
  /-- A block comment that is not closed, which takes the rest of the script. -/
  | openComment
deriving DecidableEq, Repr

/-- The length of the numeral at the start of the bytes.  A point belongs to it only if a digit follows. -/
def numeralLength (bs : List UInt8) : Nat :=
  let whole := (bs.takeWhile Byte.isDigit).length
  match bs.dropWhile Byte.isDigit with
  | [] => whole
  | b :: r =>
    let fraction := (r.takeWhile Byte.isDigit).length
    if b == Byte.dot && fraction != 0 then whole + 1 + fraction else whole

/-- The shape and length of the first piece of `b :: r`. -/
def cut (b : UInt8) (r : List UInt8) : Shape × Nat :=
  if Byte.isBlank b then (.blank, 1)
  else if Byte.isDigit b then (.number, numeralLength (b :: r))
  else if Byte.isWordStart b then (.word, ((b :: r).takeWhile Byte.isWordByte).length)
  else if b == Byte.quote then
    if r.contains Byte.quote then (.string, (r.takeWhile (· != Byte.quote)).length + 2)
    else (.openString, r.length + 1)
  else if b == Byte.slash && r.head? == some Byte.slash then
    (.lineComment, ((b :: r).takeWhile (· != Byte.newline)).length)
  else if b == Byte.slash && r.head? == some Byte.star then
    match commentLength? 0 2 r.tail with
    | some n => (.blockComment, n)
    | none => (.openComment, r.length + 1)
  else
    match Mark.longest? (b :: r) with
    | some m => (.mark m, m.bytes.length)
    | none => (.stray b, 1)

private theorem length_takeWhile_add (p : UInt8 → Bool) (bs : List UInt8) :
    (bs.takeWhile p).length + (bs.dropWhile p).length = bs.length := by
  rw [← List.length_append, List.takeWhile_append_dropWhile]

private theorem length_takeWhile_pos {p : UInt8 → Bool} {b : UInt8} (h : p b) (r : List UInt8) :
    0 < ((b :: r).takeWhile p).length := by
  simp [h]

/-- The bytes before the first quote are not all bytes if there is a quote. -/
private theorem length_takeWhile_quote_lt {r : List UInt8} (h : r.contains Byte.quote) :
    (r.takeWhile (· != Byte.quote)).length < r.length := by
  rw [← length_takeWhile_add (· != Byte.quote) r, Nat.lt_add_right_iff_pos, List.length_pos_iff]
  intro e
  have := List.any_dropWhile (p := (· != Byte.quote)) (l := r)
  simp [e] at this
  exact this _ (by simpa using h) rfl

theorem numeralLength_le (bs : List UInt8) : numeralLength bs ≤ bs.length := by
  have h := length_takeWhile_add Byte.isDigit bs
  fun_cases numeralLength bs with
  | case1 => omega
  | case2 _ b r e =>
    have := length_takeWhile_add Byte.isDigit r
    rw [e, List.length_cons] at h
    omega
  | case3 => omega

theorem numeralLength_pos {b : UInt8} (h : Byte.isDigit b) (r : List UInt8) : 0 < numeralLength (b :: r) := by
  have := length_takeWhile_pos h r
  fun_cases numeralLength (b :: r) <;> omega

theorem cut_pos (b : UInt8) (r : List UInt8) : 0 < (cut b r).2 := by
  fun_cases cut b r with
  | case2 _ h => exact numeralLength_pos h r
  | case3 _ _ h => exact length_takeWhile_pos (by simp [Byte.isWordByte, h]) r
  | case6 _ _ _ _ h =>
    simp only [Bool.and_eq_true, beq_iff_eq] at h
    exact length_takeWhile_pos (by rw [h.1]; decide) r
  | case7 _ _ _ _ _ _ n h => exact Nat.zero_lt_of_lt (commentLength?_bounds h).1
  | case9 _ _ _ _ _ _ m =>
    have := m.length_bytes
    dsimp only
    omega
  | _ => simp

theorem cut_le (b : UInt8) (r : List UInt8) : (cut b r).2 ≤ r.length + 1 := by
  fun_cases cut b r with
  | case2 => exact numeralLength_le _
  | case3 => exact (List.takeWhile_prefix _).length_le
  | case4 _ _ _ _ h =>
    have := length_takeWhile_quote_lt h
    dsimp only
    omega
  | case6 => exact (List.takeWhile_prefix _).length_le
  | case7 _ _ _ _ _ h n hn =>
    obtain ⟨_, r, rfl⟩ : ∃ a t, r = a :: t := List.exists_cons_of_ne_nil (by rintro rfl; simp at h)
    have := (commentLength?_bounds hn).2
    simp only [List.tail_cons, List.length_cons] at this ⊢
    omega
  | case9 _ _ _ _ _ _ m h => exact (m.bytes_prefix_of_longest? h).length_le
  | _ => simp

end ScriptLexer.Piece
