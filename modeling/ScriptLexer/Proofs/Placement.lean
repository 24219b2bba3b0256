import ScriptLexer.Proofs.Cursor
import ScriptLexer.Proofs.Occurrence

/-!
# Cursors and pieces

Wherever a cursor comes on a script it has not begun, or it is in a piece that `Piece.cut` finds and will stop at its
end (`Cursor.Reachable.placed`).  It goes through the pieces one by one (`Cursor.exists_leads_take`) and comes to the
end of each, on the line on which the piece ends (`Cursor.reachable_endOffset`).
-/

namespace ScriptLexer

namespace Occurrence

/-- A piece is at the end of all pieces, or another follows it. -/
private theorem exists_next {before : List UInt8} {ps : List Piece} {o : Occurrence} (h : o ∈ listFrom before ps) :
    o.after = [] ∨ ∃ o' ∈ listFrom before ps, o'.before = o.before ++ o.piece.bytes := by
  induction ps generalizing before with
  | nil => simp [listFrom] at h
  | cons p ps ih =>
    rw [listFrom, List.mem_cons] at h
    rcases h with rfl | h
    · cases ps with
      | nil => exact Or.inl rfl
      | cons q ps => exact Or.inr ⟨_, List.mem_cons_of_mem _ List.mem_cons_self, rfl⟩
    · rcases ih h with ha | ⟨o', ho', e⟩
      · exact Or.inl ha
      · exact Or.inr ⟨o', List.mem_cons_of_mem _ ho', e⟩

theorem exists_first {source : String} (h : Text.bytes source ≠ []) : ∃ o ∈ ofSource source, o.before = [] := by
  obtain ⟨b, r, e⟩ := List.exists_cons_of_ne_nil h
  rw [ofSource, e, Piece.ofBytes_cons]
  exact ⟨_, List.mem_cons_self, rfl⟩

/-- The bytes from an occurrence on begin with its piece. -/
private theorem drop_length_before {source : String} {o : Occurrence} (h : o ∈ ofSource source) :
    (Text.bytes source).drop o.before.length = o.piece.bytes ++ o.after := by
  rw [← (admits_of_mem h).1, List.append_assoc, List.drop_left]

private theorem length_eq_cut {source : String} {o : Occurrence} (h : o ∈ ofSource source) {b : UInt8} {r : List UInt8}
    (e : (Text.bytes source).drop o.before.length = b :: r) : o.piece.bytes.length = (Piece.cut b r).2 := by
  obtain ⟨-, ha, hs⟩ := admits_of_mem h
  rw [drop_length_before h] at e
  rw [ha.cut_eq hs e.symm]

end Occurrence

namespace Cursor

/-- The cursor has not begun, or it is in a piece of the script and will stop at its end. -/
def Placed (source : String) (c : Cursor) : Prop :=
  c = initial ∨ ∃ o ∈ Occurrence.ofSource source,
    c.start = o.before.length ∧ c.start ≤ c.current ∧ c.stop (Text.bytes source) = o.endOffset

/-- A cursor between two pieces that is not at the end of the script stands before a piece. -/
private theorem Placed.exists_occurrence {source : String} {c : Cursor} (h : c.Placed source) (hl : c.loop = none)
    (hc : c.current < (Text.bytes source).length) :
    ∃ o ∈ Occurrence.ofSource source, o.before.length = c.current := by
  rcases h with rfl | ⟨o, ho, -, -, hs⟩
  · obtain ⟨o, ho, e⟩ := Occurrence.exists_first (List.length_pos_iff.1 hc)
    exact ⟨o, ho, by rw [e]; rfl⟩
  · rw [stop_of_loop_eq_none hl] at hs
    rcases Occurrence.exists_next ho with ha | ⟨o', ho', e⟩
    · have hlen := Occurrence.endOffset_add_length_after ho
      rw [ha, List.length_nil, Nat.add_zero, ← hs] at hlen
      omega
    · exact ⟨o', ho', by rw [e, hs, Occurrence.endOffset]⟩

theorem Placed.step {source : String} {c c' : Cursor} (h : c.Placed source)
    (hs : step (Text.bytes source) c = some c') : c'.Placed source := by
  rcases step_cases hs with ⟨l, hl, rfl⟩ | ⟨hl, b, r, hd, rfl⟩
  · rcases h with rfl | ⟨o, ho, h1, h2, h3⟩
    · cases hl
    · refine Or.inr ⟨o, ho, h1, Nat.le_trans h2 (Nat.le_add_right _ _), ?_⟩
      rw [stop_move_round hl, h3]
  · have hc : c.current < (Text.bytes source).length := by
      rw [length_of_drop_eq_cons hd]
      exact Nat.lt_add_of_pos_right (Nat.zero_lt_succ _)
    obtain ⟨o, ho, e⟩ := h.exists_occurrence hl hc
    refine Or.inr ⟨o, ho, e.symm, Nat.le_add_right _ _, ?_⟩
    rw [stop_move_opening hd]
    rw [← e] at hd
    rw [← Occurrence.length_eq_cut ho hd, ← e, Occurrence.endOffset, List.length_append]

theorem Reachable.placed {source : String} {c : Cursor} (h : Reachable (Text.bytes source) c) : c.Placed source := by
  induction h with
  | refl => exact Or.inl rfl
  | tail _ hs ih => exact ih.step hs

theorem Placed.bounds {source : String} {c : Cursor} (h : c.Placed source) :
    c.start ≤ c.current ∧ c.stop (Text.bytes source) ≤ (Text.bytes source).length := by
  rcases h with rfl | ⟨o, ho, -, hle, hs⟩
  · exact ⟨Nat.le_refl 0, Nat.zero_le _⟩
  · have hlen := Occurrence.endOffset_add_length_after ho
    omega

section Pieces

variable {bs before : List UInt8} {c : Cursor}

private theorem exists_leads_piece {p rest : List UInt8} {s : Piece.Shape} (ha : s.Admits p rest)
    (hs : s.Stops p rest) (e : before ++ (p ++ rest) = bs) (hl : c.loop = none) (hcur : c.current = before.length) :
    ∃ line, Leads bs c ⟨before.length, (before ++ p).length, line, none⟩ := by
  obtain ⟨b, q, rfl⟩ := List.exists_cons_of_ne_nil ha.ne_nil
  have hd : bs.drop c.current = b :: (q ++ rest) := by
    rw [← e, hcur, List.drop_left, List.cons_append]
  obtain ⟨line, h⟩ := exists_leads_cut hl hd
  rw [ha.cut_eq hs List.cons_append.symm, hcur, ← List.length_append] at h
  exact ⟨line, h⟩

private theorem exists_leads_of_mem_listFrom {rest : List UInt8} (e : before ++ rest = bs) (hl : c.loop = none)
    (hcur : c.current = before.length) {o : Occurrence} (ho : o ∈ Occurrence.listFrom before (Piece.ofBytes rest)) :
    ∃ line, Leads bs c ⟨o.before.length, o.endOffset, line, none⟩ := by
  induction rest using Piece.inductionOnPieces generalizing before c with
  | nil => simp [Occurrence.listFrom] at ho
  | cons s p rest ha hs ih =>
    obtain ⟨line, hp⟩ := exists_leads_piece ha hs e hl hcur
    rw [Piece.ofBytes_append ha hs, Occurrence.listFrom, List.mem_cons] at ho
    rcases ho with rfl | ho
    · exact ⟨line, hp⟩
    · obtain ⟨line', h⟩ := ih (c := ⟨before.length, (before ++ p).length, line, none⟩)
        (by rw [List.append_assoc, e]) rfl rfl ho
      exact ⟨line', hp.trans h⟩

private theorem leads_self (hl : c.loop = none) (hcur : c.current = before.length) :
    Leads bs c ⟨c.start, before.length, c.line, none⟩ := by
  rw [← hcur, ← hl]
  exact .refl

/-- From between two pieces a cursor goes through the next ones, one by one. -/
theorem exists_leads_take {rest : List UInt8} (e : before ++ rest = bs) (hl : c.loop = none)
    (hcur : c.current = before.length) (n : Nat) :
    ∃ start line, Leads bs c
      ⟨start, (before ++ (((Piece.ofBytes rest).take n).map Piece.bytes).flatten).length, line, none⟩ := by
  induction rest using Piece.inductionOnPieces generalizing before c n with
  | nil => exact ⟨c.start, c.line, by simpa using leads_self hl hcur⟩
  | cons s p rest ha hs ih =>
    cases n with
    | zero => exact ⟨c.start, c.line, by simpa using leads_self hl hcur⟩
    | succ n =>
      obtain ⟨line, hp⟩ := exists_leads_piece ha hs e hl hcur
      obtain ⟨start, line', h⟩ := ih (c := ⟨before.length, (before ++ p).length, line, none⟩)
        (by rw [List.append_assoc, e]) rfl rfl n
      rw [List.append_assoc] at h
      rw [Piece.ofBytes_append ha hs]
      exact ⟨start, line', hp.trans h⟩

end Pieces

/-- A cursor comes to the end of every piece, from its beginning, and is then on the line on which the piece ends. -/
theorem reachable_endOffset {source : String} {o : Occurrence} (h : o ∈ Occurrence.ofSource source) :
    Reachable (Text.bytes source) ⟨o.before.length, o.endOffset, o.endLine, none⟩ := by
  obtain ⟨line, hr⟩ : ∃ line, Reachable (Text.bytes source) ⟨o.before.length, o.endOffset, line, none⟩ :=
    exists_leads_of_mem_listFrom (List.nil_append _) rfl rfl h
  have hline : line = 1 + ((Text.bytes source).take o.endOffset).count Byte.newline := hr.line_eq
  rw [← (Occurrence.admits_of_mem h).1, Occurrence.endOffset, List.take_left] at hline
  rwa [hline] at hr

end Cursor

end ScriptLexer
