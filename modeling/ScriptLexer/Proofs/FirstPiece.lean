import ScriptLexer.Proofs.PieceClass

/-!
# The first piece

Bytes in the class of a shape that nothing continues are cut off as a piece of that shape (`Shape.Admits.cut_eq`), so
class and end determine the pieces (`ofBytes_append`).  No start of the bytes in any class is longer than the first
piece (`Shape.Admits.length_lt_or_cut_eq`).  Statements about all pieces are proved by `inductionOnPieces`.
-/

namespace ScriptLexer

namespace Piece

private theorem cut_mark {m : Mark} {rest : List UInt8} {b : UInt8} {r : List UInt8} (e : b :: r = m.bytes ++ rest)
    (h : NoComment b r) {m' : Mark} (hm : Mark.longest? (m.bytes ++ rest) = some m') :
    cut b r = (.mark m', m'.bytes.length) := by
  obtain ⟨h1, h2, h3, h4, -⟩ := m.head?_bytes b (Mark.mem_head?_bytes e)
  rw [cut_of_other h1 h2 h3 h4 h, e, hm]

/-- Bytes in the class of a shape that nothing continues are cut off as a piece of that shape. -/
theorem Shape.Admits.cut_eq {s : Shape} {p rest : List UInt8} (h : s.Admits p rest) (hs : s.Stops p rest) {b : UInt8}
    {r : List UInt8} (e : b :: r = p ++ rest) : cut b r = (s, p.length) := by
  rcases h with h | ⟨c, rfl, rfl, h⟩
  · cases h with
    | mark m =>
      refine cut_mark e ?_ (Mark.longest?_append hs.1)
      rintro rfl
      obtain ⟨rfl, rfl⟩ := Mark.eq_slash e
      exact hs.2 rfl
    | word hb hw =>
      rw [List.cons_append, List.cons.injEq] at e
      rw [e.1, e.2, cut_of_isWordStart hb, takeWhile_word hb hw hs]
    | number hn =>
      obtain ⟨d, q, rfl, hd⟩ := hn.exists_cons
      rw [List.cons_append, List.cons.injEq] at e
      rw [e.1, e.2, cut_of_isDigit hd, ← List.cons_append, numeralLength_append hn hs]
    | string hw =>
      rw [List.cons_append, List.cons.injEq] at e
      rw [e.1, e.2, List.append_assoc, List.singleton_append, cut_string hw]
      simp
    | blank hb =>
      rw [List.singleton_append, List.cons.injEq] at e
      rw [e.1, cut_of_isBlank hb, List.length_singleton]
    | lineComment hw =>
      rw [List.cons_append, List.cons_append, List.cons.injEq] at e
      rw [e.1, e.2, cut_slash_slash, takeWhile_lineComment hw hs]
    | blockComment hc =>
      obtain ⟨q, rfl⟩ := hc.exists_cons
      rw [List.cons_append, List.cons_append, List.cons.injEq] at e
      rw [e.1, e.2, cut_slash_star, commentLength?_of_isComment hc]
      simp
    | openString hw =>
      rw [List.append_nil, List.cons.injEq] at e
      rw [e.1, e.2, cut_quote, if_neg hw, List.length_cons]
    | openComment hc =>
      rw [List.append_nil, List.cons.injEq] at e
      rw [e.1, e.2, cut_slash_star, commentLength?_eq_none_iff.2 hc]
      simp
  · -- a byte that starts no class can only be cut off as a stray byte
    rw [List.singleton_append, List.cons.injEq] at e
    obtain ⟨rfl, rfl⟩ := e
    obtain ⟨s, p, t, e, hcut, hm | ⟨c, rfl, rfl, -⟩, -⟩ := exists_admits b r
    · have hne : p ≠ [] := by
        rintro rfl
        have := cut_pos b r
        rw [hcut] at this
        exact Nat.lt_irrefl _ this
      obtain ⟨x, q, rfl⟩ := List.exists_cons_of_ne_nil hne
      rw [List.cons_append, List.cons.injEq] at e
      rw [← e.1] at hm
      exact absurd hm (h s q t)
    · rw [List.singleton_append, List.cons.injEq] at e
      rw [hcut, e.1]

private theorem length_le_takeWhile {f : UInt8 → Bool} {p : List UInt8} (h : ∀ c ∈ p, f c) (rest : List UInt8) :
    p.length ≤ ((p ++ rest).takeWhile f).length := by
  rw [List.takeWhile_append_of_pos h, List.length_append]
  omega

private theorem two_le_cut_of_comment {b : UInt8} {r : List UInt8} (h : ¬ NoComment b r) :
    b = Byte.slash ∧ 2 ≤ (cut b r).2 := by
  simp only [NoComment, Classical.not_imp, Classical.not_forall] at h
  obtain ⟨rfl, c, hc, h⟩ := h
  refine ⟨rfl, ?_⟩
  obtain ⟨t, rfl⟩ := List.head?_eq_some_iff.1 hc
  by_cases hs : c = Byte.slash
  · rw [hs, cut_slash_slash]
    exact length_le_takeWhile (ne_newline_of_mem (w := []) (by simp)) t
  · obtain rfl : c = Byte.star := Classical.byContradiction fun hc => h ⟨hs, hc⟩
    rw [cut_slash_star]
    cases hk : commentLength? 0 2 t with
    | none => exact Nat.le_add_left 2 t.length
    | some k => exact Nat.le_of_lt (commentLength?_bounds hk).1

private theorem lt_or_eq_of_cut_eq {s : Shape} {p : List UInt8} {n : Nat} {b : UInt8} {r : List UInt8}
    (hcut : cut b r = (s, n)) (hl : p.length ≤ n) : p.length < (cut b r).2 ∨ cut b r = (s, p.length) := by
  rw [hcut]
  rcases Nat.lt_or_eq_of_le hl with hl | hl
  · exact Or.inl hl
  · exact Or.inr (by rw [hl])

/-- No start of the bytes in any class is longer than the first piece, and none of the same length has another
shape. -/
theorem Shape.Admits.length_lt_or_cut_eq {s : Shape} {p rest : List UInt8} (h : s.Admits p rest) {b : UInt8}
    {r : List UInt8} (e : b :: r = p ++ rest) : p.length < (cut b r).2 ∨ cut b r = (s, p.length) := by
  -- only marks, words, numbers and line comments can be continued
  by_cases hs : s.Stops p rest
  · exact Or.inr (h.cut_eq hs e)
  rcases h with h | ⟨c, rfl, rfl, h⟩
  · cases h with
    | mark m =>
      by_cases hc : NoComment b r
      · obtain ⟨m', hm, rfl | hl⟩ := m.exists_longest? rest
        · exact Or.inr (cut_mark e hc hm)
        · rw [cut_mark e hc hm]
          exact Or.inl hl
      · -- a slash that begins a comment is shorter than the comment
        obtain ⟨rfl, hl⟩ := two_le_cut_of_comment hc
        obtain ⟨rfl, rfl⟩ := Mark.eq_slash e
        rw [Mark.bytes_slash]
        exact Or.inl hl
    | word hb hw =>
      have hl := length_le_takeWhile (isWordByte_of_mem hb hw) rest
      rw [← e] at hl
      rw [List.cons_append, List.cons.injEq] at e
      rw [← e.1] at hb
      exact lt_or_eq_of_cut_eq (cut_of_isWordStart hb r) hl
    | number hn =>
      obtain ⟨d, q, rfl, hd⟩ := hn.exists_cons
      have hl := length_le_numeralLength hn rest
      rw [← e] at hl
      rw [List.cons_append, List.cons.injEq] at e
      rw [← e.1] at hd
      exact lt_or_eq_of_cut_eq (cut_of_isDigit hd r) hl
    | lineComment hw =>
      have hl := length_le_takeWhile (ne_newline_of_mem hw) rest
      rw [← e] at hl
      rw [List.cons_append, List.cons_append, List.cons.injEq] at e
      obtain ⟨rfl, rfl⟩ := e
      exact lt_or_eq_of_cut_eq (cut_slash_slash _) hl
    | _ => exact absurd trivial hs
  · exact absurd trivial hs

/-! ### All pieces -/

theorem Shape.Admits.ne_nil {s : Shape} {p rest : List UInt8} (h : s.Admits p rest) : p ≠ [] := by
  rcases h with h | ⟨c, -, rfl, -⟩
  · cases h with
    | mark m =>
      intro e
      have := m.length_bytes
      rw [e, List.length_nil] at this
      omega
    | number hn =>
      obtain ⟨d, q, rfl, -⟩ := hn.exists_cons
      exact List.cons_ne_nil d q
    | blockComment hc =>
      obtain ⟨q, rfl⟩ := hc.exists_cons
      exact List.cons_ne_nil _ _
    | _ => exact List.cons_ne_nil _ _
  · exact List.cons_ne_nil c []

/-- A piece is cut off in front of bytes that do not continue it. -/
theorem ofBytes_append {s : Shape} {p rest : List UInt8} (h : s.Admits p rest) (hs : s.Stops p rest) :
    ofBytes (p ++ rest) = ⟨s, p⟩ :: ofBytes rest := by
  obtain ⟨b, q, rfl⟩ := List.exists_cons_of_ne_nil h.ne_nil
  have hcut := h.cut_eq hs (b := b) (r := q ++ rest) rfl
  have hp : first b (q ++ rest) = ⟨s, b :: q⟩ := by
    rw [first, hcut, ← List.cons_append, List.take_left]
  have hr : Piece.rest b (q ++ rest) = rest := by
    rw [Piece.rest, hcut, ← List.cons_append, List.drop_left]
  rw [List.cons_append, ofBytes_cons, hp, hr]

private theorem Shape.stops_nil (s : Shape) (p : List UInt8) : s.Stops p [] := by
  cases s with
  | mark m => exact ⟨nofun, fun _ => nofun⟩
  | word | lineComment => exact Byte.halts_nil _
  | number => exact ⟨Byte.halts_nil _, fun _ => nofun⟩
  | _ => trivial

theorem ofBytes_single {s : Shape} {p : List UInt8} (h : s.Admits p []) : ofBytes p = [⟨s, p⟩] := by
  have e := ofBytes_append h (s.stops_nil p)
  rwa [List.append_nil, ofBytes_nil] at e

/-- What holds of no bytes, and of a piece and the bytes after it whenever it holds of these, holds of all bytes. -/
@[elab_as_elim] theorem inductionOnPieces {motive : List UInt8 → Prop} (nil : motive [])
    (cons : ∀ (s : Shape) (p rest : List UInt8), s.Admits p rest → s.Stops p rest → motive rest → motive (p ++ rest))
    (bs : List UInt8) : motive bs := by
  induction bs using inductionOnRest with
  | nil => exact nil
  | cons b r ih =>
    obtain ⟨s, p, t, e, hcut, h, hs⟩ := exists_admits b r
    have hr : rest b r = t := by
      rw [rest, hcut, e, List.drop_left]
    rw [e]
    exact cons s p t h hs (hr ▸ ih)

end Piece

end ScriptLexer
