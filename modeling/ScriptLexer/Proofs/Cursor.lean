import Mathlib.Logic.Relation
import ScriptLexer.Cursor
import ScriptLexer.Proofs.FirstPiece

/-!
# Steps and runs of a cursor

Everything that a step of a cursor can do is listed in `Cursor.step_cases`.  The key facts: the mark that a cursor finds
by two bytes is the longest one (`Cursor.mark?_eq`), the first piece is as long as the rounds of its loop
(`Cursor.cut_eq_opening`, `Cursor.Loop.length_eq`), a round leaves the end of the piece where it is
(`Cursor.stop_move_round`), no run goes on for ever (`Cursor.wellFounded_step`), and wherever a run comes it has counted
the line feeds before it once each (`Cursor.Reachable.line_eq`).
-/

namespace ScriptLexer.Cursor

/-- Some steps lead from the first cursor to the second. -/
def Leads (bs : List UInt8) : Cursor → Cursor → Prop :=
  Relation.ReflTransGen fun c c' => step bs c = some c'

def Reachable (bs : List UInt8) (c : Cursor) : Prop :=
  Leads bs initial c

/-! ### Marks -/

private theorem mark?_of_singleton {b : UInt8} {m : Mark} (hm : m.bytes = [b]) (h : Mark.beginningWith b = [m])
    (r : List UInt8) : some (1, m) = (Mark.longest? (b :: r)).map fun m => (m.bytes.length, m) := by
  rw [Mark.longest?_of_beginningWith_singleton hm h, Option.map_some, hm]
  rfl

private theorem mark?_of_pair {b c : UInt8} {m m' : Mark} (hm : m.bytes = [b]) (hm' : m'.bytes = [b, c])
    (h : Mark.beginningWith b = [m, m']) (r : List UInt8) :
    some (either c m' m r) = (Mark.longest? (b :: r)).map fun m => (m.bytes.length, m) := by
  rw [Mark.longest?_of_beginningWith_pair hm hm' h, Option.map_some, either]
  split
  · rw [hm']
    rfl
  · rw [hm]
    rfl

/-- The mark that a cursor finds by at most two bytes is the longest one in the table of marks. -/
theorem mark?_eq (b : UInt8) (r : List UInt8) :
    mark? b r = (Mark.longest? (b :: r)).map fun m => (m.bytes.length, m) := by
  fun_cases mark? b r with
  | case1 | case2 | case3 | case4 | case5 | case6 | case7 | case8 | case9 | case10 | case11 =>
    exact mark?_of_singleton (by decide) (by decide) r
  | case12 | case13 | case14 | case15 | case16 | case17 =>
    exact mark?_of_pair (by decide) (by decide) (by decide) r
  | case18 =>
    have hb : Mark.beginningWith b = [] := by
      rw [List.eq_nil_iff_forall_not_mem]
      intro m hm
      have hm := Mark.mem_beginningWith.1 hm
      cases m <;> cases hm <;> contradiction
    rw [Mark.longest?_of_beginningWith_nil hb]
    rfl

private theorem mark?_eq_some {b : UInt8} {r : List UInt8} {n : Nat} {m : Mark} (h : mark? b r = some (n, m)) :
    Mark.longest? (b :: r) = some m ∧ n = m.bytes.length := by
  rw [mark?_eq, Option.map_eq_some_iff] at h
  obtain ⟨m', hm, e⟩ := h
  cases e
  exact ⟨hm, rfl⟩

theorem mark?_eq_none {b : UInt8} {r : List UInt8} (h : mark? b r = none) : Mark.longest? (b :: r) = none := by
  rwa [mark?_eq, Option.map_eq_none_iff] at h

/-! ### The length of a loop -/

/-- The number of bytes that a loop passes before the given bytes. -/
def Loop.length : Loop → List UInt8 → Nat
  | lineComment, bs => (bs.takeWhile (· != Byte.newline)).length
  | blockComment depth, bs => (Piece.commentLength? depth 0 bs).getD bs.length
  | string, bs => if Byte.quote ∈ bs then (bs.takeWhile (· != Byte.quote)).length + 1 else bs.length
  | whole, bs => Piece.numeralLength bs
  | fraction, bs => (bs.takeWhile Byte.isDigit).length
  | word, bs => (bs.takeWhile Byte.isWordByte).length

def lengthOf? (loop : Option Loop) (bs : List UInt8) : Nat :=
  match loop with
  | some l => l.length bs
  | none => 0

private theorem length_takeWhile_cons {p : UInt8 → Bool} {b : UInt8} (h : p b) (r : List UInt8) :
    ((b :: r).takeWhile p).length = 1 + (r.takeWhile p).length := by
  rw [List.takeWhile_cons_of_pos h, List.length_cons, Nat.add_comm]

private theorem length_takeWhile_cons_of_not {p : UInt8 → Bool} {b : UInt8} (h : ¬ p b) (r : List UInt8) :
    ((b :: r).takeWhile p).length = 0 := by
  rw [List.takeWhile_cons_of_neg h, List.length_nil]

private theorem numeralLength_cons_of_isDigit {b : UInt8} (h : Byte.isDigit b) (r : List UInt8) :
    Piece.numeralLength (b :: r) = 1 + Piece.numeralLength r := by
  rw [Piece.numeralLength, Piece.numeralLength, List.takeWhile_cons_of_pos h, List.dropWhile_cons_of_pos h,
    List.length_cons]
  split
  · omega
  · dsimp only
    split <;> omega

private theorem numeralLength_cons_of_not_isDigit {b : UInt8} (h : ¬ Byte.isDigit b) (r : List UInt8) :
    Piece.numeralLength (b :: r) =
      if b == Byte.dot && r.head?.any Byte.isDigit then 1 + (r.takeWhile Byte.isDigit).length else 0 := by
  rw [Piece.numeralLength, List.takeWhile_cons_of_neg h, List.dropWhile_cons_of_neg h]
  cases r with
  | nil => simp
  | cons c r => cases hc : Byte.isDigit c <;> simp [hc]

private theorem commentLength?_add (depth n m : Nat) (bs : List UInt8) :
    Piece.commentLength? depth (n + m) bs = (Piece.commentLength? depth n bs).map (· + m) := by
  fun_induction Piece.commentLength? depth n bs with
  | case1 => rfl
  | case2 => rfl
  | case3 depth n a b r h ih =>
    rw [Piece.commentLength?, if_pos h, Nat.add_right_comm, ih]
  | case4 n a b r h h' =>
    rw [Piece.commentLength?, if_neg h, if_pos h', if_pos rfl, Nat.add_right_comm]
    rfl
  | case5 depth n a b r h h' h'' ih =>
    rw [Piece.commentLength?, if_neg h, if_pos h', if_neg h'', Nat.add_right_comm, ih]
  | case6 depth n a b r h h' ih =>
    rw [Piece.commentLength?, if_neg h, if_neg h', Nat.add_right_comm, ih]

private theorem getD_commentLength?_add (depth n : Nat) (bs : List UInt8) :
    (Piece.commentLength? depth n bs).getD (bs.length + n) = n + (Loop.blockComment depth).length bs := by
  have h := commentLength?_add depth 0 n bs
  rw [Nat.zero_add] at h
  rw [h, Loop.length]
  cases Piece.commentLength? depth 0 bs with
  | none => exact Nat.add_comm _ _
  | some k => exact Nat.add_comm _ _

private theorem length_string_cons_of_not {b : UInt8} (h : ¬ (b == Byte.quote) = true) (r : List UInt8) :
    Loop.string.length (b :: r) = 1 + Loop.string.length r := by
  have hb : Byte.quote ≠ b := fun e => h (by rw [e, beq_self_eq_true])
  have hm : Byte.quote ∈ b :: r ↔ Byte.quote ∈ r := by rw [List.mem_cons, or_iff_right hb]
  rw [Loop.length, Loop.length]
  by_cases hq : Byte.quote ∈ r
  · rw [if_pos (hm.2 hq), if_pos hq, length_takeWhile_cons (p := (· != Byte.quote)) (bne_iff_ne.2 hb.symm),
      Nat.add_assoc]
  · rw [if_neg (mt hm.1 hq), if_neg hq, List.length_cons, Nat.add_comm]

/-- A round of a loop passes the first of the bytes that the loop passes. -/
theorem Loop.length_eq (l : Loop) (bs : List UInt8) :
    l.length bs = (l.round bs).bytes + lengthOf? (l.round bs).loop (bs.drop (l.round bs).bytes) := by
  fun_cases Loop.round l bs with
  | case1 l => cases l <;> rfl
  | case2 b r h => exact length_takeWhile_cons (p := (· != Byte.newline)) h r
  | case3 b r h => exact length_takeWhile_cons_of_not (p := (· != Byte.newline)) h r
  | case4 depth b => rfl
  | case5 depth a b r h =>
    rw [Loop.length, Piece.commentLength?, if_pos h]
    exact getD_commentLength?_add (depth + 1) 2 r
  | case6 depth a b r h h' =>
    rw [Loop.length, Piece.commentLength?, if_neg h, if_pos h']
    by_cases hd : depth = 0
    · rw [if_pos hd, if_pos hd]
      rfl
    · rw [if_neg hd, if_neg hd]
      exact getD_commentLength?_add (depth - 1) 2 r
  | case7 depth a b r h h' =>
    rw [Loop.length, Piece.commentLength?, if_neg h, if_neg h']
    exact getD_commentLength?_add depth 1 (b :: r)
  | case8 b r h =>
    rw [beq_iff_eq] at h
    simp [Loop.length, lengthOf?, h]
  | case9 b r h => exact length_string_cons_of_not h r
  | case10 b r h => exact numeralLength_cons_of_isDigit h r
  | case11 b r h h' | case12 b r h h' =>
    rw [Loop.length, numeralLength_cons_of_not_isDigit h]
    simp only [h', if_true, if_false, Bool.false_eq_true]
    rfl
  | case13 b r h | case15 b r h => exact length_takeWhile_cons h r
  | case14 b r h | case16 b r h => exact length_takeWhile_cons_of_not h r

/-- A round of a loop passes a byte, or it is the last. -/
private theorem Loop.round_pos {l l' : Loop} {bs : List UInt8} (h : (l.round bs).loop = some l') :
    0 < (l.round bs).bytes := by
  fun_cases Loop.round l bs with
  | case1 | case3 | case8 | case12 | case14 | case16 => simp [Loop.round, *] at h
  | _ => simp

/-- The length of the first piece, as a cursor reads it. -/
theorem cut_eq_opening (b : UInt8) (r : List UInt8) :
    (Piece.cut b r).2 =
      (opening b r).bytes + lengthOf? (opening b r).loop ((b :: r).drop (opening b r).bytes) := by
  fun_cases opening b r with
  | case1 h =>
    rw [Piece.cut_of_isBlank h]
    rfl
  | case2 _ h =>
    rw [Piece.cut_of_isDigit h]
    exact numeralLength_cons_of_isDigit h r
  | case3 _ _ h =>
    rw [Piece.cut_of_isWordStart h]
    exact length_takeWhile_cons (by rw [Byte.isWordByte, h, Bool.true_or]) r
  | case4 _ _ _ h =>
    obtain rfl := beq_iff_eq.1 h
    rw [Piece.cut_quote]
    show _ = 1 + Loop.string.length r
    rw [Loop.length]
    split
    · exact Nat.add_comm _ 1
    · exact Nat.add_comm _ 1
  | case5 _ _ _ _ h =>
    rw [Bool.and_eq_true, beq_iff_eq, beq_iff_eq] at h
    obtain ⟨rfl, h⟩ := h
    obtain ⟨t, rfl⟩ := List.head?_eq_some_iff.1 h
    have hp : (Byte.slash != Byte.newline) = true := by decide
    rw [Piece.cut_slash_slash]
    show ((Byte.slash :: Byte.slash :: t).takeWhile (· != Byte.newline)).length = 2 + Loop.lineComment.length t
    rw [length_takeWhile_cons (p := (· != Byte.newline)) hp, length_takeWhile_cons (p := (· != Byte.newline)) hp,
      ← Nat.add_assoc, Loop.length]
  | case6 _ _ _ _ _ h =>
    rw [Bool.and_eq_true, beq_iff_eq, beq_iff_eq] at h
    obtain ⟨rfl, h⟩ := h
    obtain ⟨t, rfl⟩ := List.head?_eq_some_iff.1 h
    refine Eq.trans ?_ (getD_commentLength?_add 0 2 t)
    rw [Piece.cut_slash_star]
    cases Piece.commentLength? 0 2 t <;> rfl
  | case7 h1 h2 h3 h4 h5 h6 n m h =>
    obtain ⟨hm, rfl⟩ := mark?_eq_some h
    rw [Piece.cut, if_neg h1, if_neg h2, if_neg h3, if_neg h4, if_neg h5, if_neg h6, hm]
    rfl
  | case8 h1 h2 h3 h4 h5 h6 h =>
    rw [Piece.cut, if_neg h1, if_neg h2, if_neg h3, if_neg h4, if_neg h5, if_neg h6, mark?_eq_none h]
    rfl

/-! ### Steps -/

theorem step_of_loop_eq_some {bs : List UInt8} {c : Cursor} {l : Loop} (h : c.loop = some l) :
    step bs c = some (c.move c.start (l.round (bs.drop c.current))) := by
  simp only [step, h]

theorem step_of_loop_eq_none {bs : List UInt8} {c : Cursor} (h : c.loop = none) {b : UInt8} {r : List UInt8}
    (hd : bs.drop c.current = b :: r) : step bs c = some (c.move c.current (opening b r)) := by
  simp only [step, h, hd]

/-- A step is a round of the loop that the cursor is in, or it begins a piece. -/
theorem step_cases {bs : List UInt8} {c c' : Cursor} (h : step bs c = some c') :
    (∃ l, c.loop = some l ∧ c' = c.move c.start (l.round (bs.drop c.current))) ∨
      c.loop = none ∧ ∃ b r, bs.drop c.current = b :: r ∧ c' = c.move c.current (opening b r) := by
  cases hl : c.loop with
  | some l =>
    rw [step_of_loop_eq_some hl, Option.some.injEq] at h
    exact Or.inl ⟨l, rfl, h.symm⟩
  | none =>
    cases hd : bs.drop c.current with
    | nil => simp [step, hl, hd] at h
    | cons b r =>
      rw [step_of_loop_eq_none hl hd, Option.some.injEq] at h
      exact Or.inr ⟨rfl, b, r, rfl, h.symm⟩

/-- A cursor that can make no step is between two pieces and has read all bytes. -/
theorem step_eq_none_iff {bs : List UInt8} {c : Cursor} :
    step bs c = none ↔ c.loop = none ∧ bs.length ≤ c.current := by
  cases hl : c.loop with
  | some l => simp [step, hl]
  | none =>
    rw [← List.drop_eq_nil_iff]
    cases hd : bs.drop c.current <;> simp [step, hl, hd]

/-- The offset at which the piece that a cursor is in will end. -/
def stop (bs : List UInt8) (c : Cursor) : Nat :=
  c.current + lengthOf? c.loop (bs.drop c.current)

theorem current_le_stop (bs : List UInt8) (c : Cursor) : c.current ≤ c.stop bs :=
  Nat.le_add_right _ _

theorem stop_of_loop_eq_none {bs : List UInt8} {c : Cursor} (h : c.loop = none) : c.stop bs = c.current := by
  rw [stop, h]
  rfl

/-- A round of a loop keeps the end of the piece. -/
theorem stop_move_round {bs : List UInt8} {c : Cursor} {l : Loop} (h : c.loop = some l) :
    (c.move c.start (l.round (bs.drop c.current))).stop bs = c.stop bs := by
  rw [stop, stop, move_current, move_loop, h, lengthOf?, l.length_eq, List.drop_drop, Nat.add_assoc]

/-- A piece that is begun will end where `Piece.cut` ends it. -/
theorem stop_move_opening {bs : List UInt8} {c : Cursor} {b : UInt8} {r : List UInt8}
    (hd : bs.drop c.current = b :: r) :
    (c.move c.current (opening b r)).stop bs = c.current + (Piece.cut b r).2 := by
  rw [stop, move_current, move_loop, cut_eq_opening, ← hd, List.drop_drop, Nat.add_assoc]

/-! ### Lines -/

private theorem count_take_one (b : UInt8) (r : List UInt8) :
    ((b :: r).take 1).count Byte.newline = lineFeeds b := by
  rw [List.take_succ_cons, List.take_zero, List.count_singleton, lineFeeds]

private theorem count_take_one_of_class {p : UInt8 → Bool} (hp : p Byte.newline = false) {b : UInt8} (h : p b)
    (r : List UInt8) : ((b :: r).take 1).count Byte.newline = 0 := by
  have hb : (b == Byte.newline) = false := by
    rw [beq_eq_false_iff_ne]
    rintro rfl
    rw [hp] at h
    cases h
  rw [count_take_one, lineFeeds, hb, if_neg Bool.false_ne_true]

/-- A round of a loop counts the line feeds that it passes. -/
theorem Loop.lines_round (l : Loop) (bs : List UInt8) :
    (l.round bs).lines = (bs.take (l.round bs).bytes).count Byte.newline := by
  fun_cases Loop.round l bs with
  | case1 | case3 | case12 | case14 | case16 => rfl
  | case2 b r h => exact (count_take_one_of_class (p := (· != Byte.newline)) (by decide) h r).symm
  | case4 depth b => exact (count_take_one b []).symm
  | case5 depth a b r h | case6 depth a b r _ h =>
    -- no delimiter of a comment has a line feed
    rw [Bool.and_eq_true, beq_iff_eq, beq_iff_eq] at h
    obtain ⟨rfl, rfl⟩ := h
    rfl
  | case7 depth a b r => exact (count_take_one a (b :: r)).symm
  | case8 b r h =>
    obtain rfl := beq_iff_eq.1 h
    rfl
  | case9 b r => exact (count_take_one b r).symm
  | case10 b r h | case13 b r h => exact (count_take_one_of_class (by decide) h r).symm
  | case11 b r _ h =>
    rw [Bool.and_eq_true, beq_iff_eq] at h
    obtain ⟨rfl, -⟩ := h
    rfl
  | case15 b r h => exact (count_take_one_of_class (by decide) h r).symm

/-- The beginning of a piece counts the line feeds that it passes. -/
theorem lines_opening (b : UInt8) (r : List UInt8) :
    (opening b r).lines = ((b :: r).take (opening b r).bytes).count Byte.newline := by
  fun_cases opening b r with
  | case1 => exact (count_take_one b r).symm
  | case2 _ h | case3 _ _ h => exact (count_take_one_of_class (by decide) h r).symm
  | case4 _ _ _ h =>
    obtain rfl := beq_iff_eq.1 h
    rfl
  | case5 _ _ _ _ h | case6 _ _ _ _ _ h =>
    rw [Bool.and_eq_true, beq_iff_eq, beq_iff_eq] at h
    obtain ⟨rfl, h⟩ := h
    obtain ⟨t, rfl⟩ := List.head?_eq_some_iff.1 h
    rfl
  | case7 _ _ _ _ _ _ n m h =>
    obtain ⟨hm, rfl⟩ := mark?_eq_some h
    have e : m.bytes = (b :: r).take m.bytes.length := List.prefix_iff_eq_take.1 (Mark.bytes_prefix_of_longest? hm)
    dsimp only
    rw [← e, List.count_eq_zero_of_not_mem m.newline_notMem_bytes]
  | case8 h => exact (count_take_one_of_class (p := (!Byte.isBlank ·)) (by decide) (by simpa using h) r).symm

/-- A step passes some bytes and counts their line feeds. -/
theorem line_of_step {bs : List UInt8} {c c' : Cursor} (h : step bs c = some c') :
    ∃ n, c'.current = c.current + n ∧ c'.line = c.line + ((bs.drop c.current).take n).count Byte.newline := by
  rcases step_cases h with ⟨l, -, rfl⟩ | ⟨-, b, r, hd, rfl⟩
  · exact ⟨_, rfl, by rw [move_line, l.lines_round]⟩
  · exact ⟨_, rfl, by rw [move_line, lines_opening, hd]⟩

/-- Wherever a cursor comes, also in a loop, it has counted every line feed before it once. -/
theorem Reachable.line_eq {bs : List UInt8} {c : Cursor} (h : Reachable bs c) :
    c.line = 1 + (bs.take c.current).count Byte.newline := by
  induction h with
  | refl => rfl
  | tail _ hs ih =>
    obtain ⟨n, hcur, hline⟩ := line_of_step hs
    rw [hline, ih, hcur, List.take_add, List.count_append, Nat.add_assoc]

/-! ### Runs -/

private theorem Loop.round_le (l : Loop) (bs : List UInt8) : (l.round bs).bytes ≤ bs.length := by
  fun_cases Loop.round l bs <;> simp

private theorem opening_pos (b : UInt8) (r : List UInt8) : 0 < (opening b r).bytes := by
  fun_cases opening b r with
  | case7 _ _ _ _ _ _ n m h =>
    have hlen := m.length_bytes
    rw [← (mark?_eq_some h).2] at hlen
    dsimp only
    omega
  | _ => simp

theorem length_of_drop_eq_cons {bs : List UInt8} {n : Nat} {b : UInt8} {r : List UInt8} (h : bs.drop n = b :: r) :
    bs.length = n + (b :: r).length := by
  rw [← h, List.length_drop]
  have := congrArg List.length h
  rw [List.length_drop, List.length_cons] at this
  omega

/-- A bound for the number of steps to come: a step passes a byte or leaves a loop. -/
def remaining (bs : List UInt8) (c : Cursor) : Nat :=
  2 * (bs.length - c.current) + if c.loop.isSome then 1 else 0

private theorem remaining_lt_of_step {bs : List UInt8} {c c' : Cursor} (h : step bs c = some c') :
    c'.remaining bs < c.remaining bs := by
  rcases step_cases h with ⟨l, hl, rfl⟩ | ⟨hl, b, r, hd, rfl⟩
  · have hle := l.round_le (bs.drop c.current)
    rw [List.length_drop] at hle
    rw [remaining, remaining, move_current, move_loop, hl, Option.isSome_some, if_pos rfl]
    cases hr : (l.round (bs.drop c.current)).loop with
    | some l' =>
      have hpos := Loop.round_pos hr
      rw [Option.isSome_some, if_pos rfl]
      omega
    | none =>
      rw [Option.isSome_none, if_neg Bool.false_ne_true]
      omega
  · have hpos := opening_pos b r
    have hlen := length_of_drop_eq_cons hd
    rw [List.length_cons] at hlen
    rw [remaining, remaining, move_current, move_loop, hl, Option.isSome_none, if_neg Bool.false_ne_true]
    split <;> omega

/-- No run of a cursor goes on for ever. -/
theorem wellFounded_step (bs : List UInt8) : WellFounded fun c' c => step bs c = some c' :=
  Subrelation.wf (fun h => remaining_lt_of_step h) (measure (remaining bs)).wf

/-- Every loop ends, and it ends where the piece does. -/
theorem exists_leads_stop (bs : List UInt8) (c : Cursor) : ∃ line, Leads bs c ⟨c.start, c.stop bs, line, none⟩ := by
  induction c using (wellFounded_step bs).induction with
  | _ c ih =>
    cases hl : c.loop with
    | none =>
      rw [stop_of_loop_eq_none hl, ← hl]
      exact ⟨c.line, .refl⟩
    | some l =>
      have hs : step bs c = _ := step_of_loop_eq_some hl
      obtain ⟨line, h⟩ := ih _ hs
      rw [move_start, stop_move_round hl] at h
      exact ⟨line, .head hs h⟩

/-- From between two pieces a cursor goes to the end of the next one. -/
theorem exists_leads_cut {bs : List UInt8} {c : Cursor} (hl : c.loop = none) {b : UInt8} {r : List UInt8}
    (hd : bs.drop c.current = b :: r) :
    ∃ line, Leads bs c ⟨c.current, c.current + (Piece.cut b r).2, line, none⟩ := by
  obtain ⟨line, h⟩ := exists_leads_stop bs (c.move c.current (opening b r))
  rw [move_start, stop_move_opening hd] at h
  exact ⟨line, .head (step_of_loop_eq_none hl hd) h⟩

/-- Every run comes to an end. -/
theorem exists_leads_halted (bs : List UInt8) (c : Cursor) : ∃ c', Leads bs c c' ∧ step bs c' = none := by
  induction c using (wellFounded_step bs).induction with
  | _ c ih =>
    cases hs : step bs c with
    | none => exact ⟨c, .refl, hs⟩
    | some c' =>
      obtain ⟨c'', h, he⟩ := ih c' hs
      exact ⟨c'', .head hs h, he⟩

end ScriptLexer.Cursor
