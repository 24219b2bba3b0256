import ScriptLexer.Piece.Basic
import ScriptLexer.Proofs.LongestMark
import ScriptLexer.Proofs.NestedComment
import ScriptLexer.Proofs.NumeralSpelling

/-!
# Classes of pieces

Each shape stands for a class of byte strings (`Shape.Matches`); a stray byte is one that starts none of them
(`Shape.Admits`).  The key fact: the first piece of any bytes is in the class of its shape, and the
bytes after it do not continue it (`exists_admits`).
-/

namespace ScriptLexer

namespace Piece

/-- The bytes `p`, read before the bytes `rest`, are in the class of the shape.  The classes of the faults at the end
of a script are the only ones for which `rest` matters. -/
inductive Shape.Matches : Shape → (p rest : List UInt8) → Prop where
  | mark (m : Mark) {rest : List UInt8} : Matches (.mark m) m.bytes rest
  | word {b : UInt8} {w rest : List UInt8} : Byte.isWordStart b → (∀ c ∈ w, Byte.isWordByte c) →
      Matches .word (b :: w) rest
  | number {n : Numeral} {p rest : List UInt8} : n.Spelled p → Matches .number p rest
  | string {body rest : List UInt8} : Byte.quote ∉ body → Matches .string (Byte.quote :: (body ++ [Byte.quote])) rest
  | blank {b : UInt8} {rest : List UInt8} : Byte.isBlank b → Matches .blank [b] rest
  | lineComment {body rest : List UInt8} : Byte.newline ∉ body →
      Matches .lineComment (Byte.slash :: Byte.slash :: body) rest
  | blockComment {p rest : List UInt8} : IsComment p → Matches .blockComment p rest
  | openString {r : List UInt8} : Byte.quote ∉ r → Matches .openString (Byte.quote :: r) []
  | openComment {r : List UInt8} : (∀ q, q <+: Byte.slash :: Byte.star :: r → ¬ IsComment q) →
      Matches .openComment (Byte.slash :: Byte.star :: r) []

/-- The bytes are in the class of the shape, or they are one byte that starts no other class. -/
def Shape.Admits (s : Shape) (p rest : List UInt8) : Prop :=
  s.Matches p rest ∨ ∃ b, s = .stray b ∧ p = [b] ∧ ∀ s' q rest', ¬ Shape.Matches s' (b :: q) rest'

/-- The bytes `rest` do not continue a piece of the shape with the bytes `p`. -/
def Shape.Stops : Shape → (p rest : List UInt8) → Prop
  | .mark m, _, rest => m.Halts rest ∧ (m = .slash → ∀ c ∈ rest.head?, c ≠ Byte.slash ∧ c ≠ Byte.star)
  | .word, _, rest => Byte.Halts Byte.isWordByte rest
  | .number, p, rest => NumeralHalts p rest
  | .lineComment, _, rest => Byte.Halts (· != Byte.newline) rest
  | _, _, _ => True

/-! ### The first byte decides -/

theorem isBlank_cases {b : UInt8} (h : Byte.isBlank b) : b = 0x20 ∨ b = 0x09 ∨ b = 0x0D ∨ b = 0x0A := by
  simpa [Byte.isBlank, Byte.newline, or_assoc] using h

theorem isBlank_eq_false_of_isDigit {b : UInt8} (h : Byte.isDigit b) : Byte.isBlank b = false := by
  rw [Bool.eq_false_iff]
  intro hb
  rcases isBlank_cases hb with rfl | rfl | rfl | rfl <;> exact absurd h (by decide)

theorem isBlank_eq_false_of_isWordStart {b : UInt8} (h : Byte.isWordStart b) : Byte.isBlank b = false := by
  rw [Bool.eq_false_iff]
  intro hb
  rcases isBlank_cases hb with rfl | rfl | rfl | rfl <;> exact absurd h (by decide)

private theorem isDigit_eq_false_of_isWordStart {b : UInt8} (h : Byte.isWordStart b) : Byte.isDigit b = false := by
  rw [Bool.eq_false_iff]
  intro hb
  simp only [Byte.isWordStart, Byte.isDigit, Bool.and_eq_true, Bool.or_eq_true, decide_eq_true_eq, beq_iff_eq,
    UInt8.le_iff_toNat_le, UInt8.toNat_ofNat] at h hb
  rcases h with (h | h) | rfl
  · omega
  · omega
  · exact absurd hb.2 (by decide)

theorem cut_of_isBlank {b : UInt8} (h : Byte.isBlank b) (r : List UInt8) : cut b r = (.blank, 1) := by
  simp [cut, h]

theorem cut_of_isDigit {b : UInt8} (h : Byte.isDigit b) (r : List UInt8) :
    cut b r = (.number, numeralLength (b :: r)) := by
  simp [cut, h, isBlank_eq_false_of_isDigit h]

theorem cut_of_isWordStart {b : UInt8} (h : Byte.isWordStart b) (r : List UInt8) :
    cut b r = (.word, ((b :: r).takeWhile Byte.isWordByte).length) := by
  simp only [cut, h, isBlank_eq_false_of_isWordStart h, isDigit_eq_false_of_isWordStart h, if_true, if_false,
    Bool.false_eq_true]

theorem cut_quote (r : List UInt8) :
    cut Byte.quote r = if Byte.quote ∈ r then (.string, (r.takeWhile (· != Byte.quote)).length + 2)
      else (.openString, r.length + 1) := by
  have h1 : Byte.isBlank Byte.quote = false := by decide
  have h2 : Byte.isDigit Byte.quote = false := by decide
  have h3 : Byte.isWordStart Byte.quote = false := by decide
  simp [cut, h1, h2, h3]

theorem cut_slash_slash (r : List UInt8) :
    cut Byte.slash (Byte.slash :: r) =
      (.lineComment, ((Byte.slash :: Byte.slash :: r).takeWhile (· != Byte.newline)).length) := by
  have h1 : Byte.isBlank Byte.slash = false := by decide
  have h2 : Byte.isDigit Byte.slash = false := by decide
  have h3 : Byte.isWordStart Byte.slash = false := by decide
  have h4 : Byte.slash ≠ Byte.quote := by decide
  simp [cut, h1, h2, h3, h4]

theorem cut_slash_star (r : List UInt8) :
    cut Byte.slash (Byte.star :: r) =
      match commentLength? 0 2 r with
      | some n => (.blockComment, n)
      | none => (.openComment, r.length + 2) := by
  have h1 : Byte.isBlank Byte.slash = false := by decide
  have h2 : Byte.isDigit Byte.slash = false := by decide
  have h3 : Byte.isWordStart Byte.slash = false := by decide
  have h4 : Byte.slash ≠ Byte.quote := by decide
  have h5 : Byte.star ≠ Byte.slash := by decide
  simp only [cut, h1, h2, h3, beq_eq_false_iff_ne.2 h4, List.head?_cons, List.tail_cons]
  cases commentLength? 0 2 r <;> simp [h5]

def NoComment (b : UInt8) (r : List UInt8) : Prop :=
  b = Byte.slash → ∀ c ∈ r.head?, c ≠ Byte.slash ∧ c ≠ Byte.star

theorem cut_of_other {b : UInt8} {r : List UInt8} (h1 : Byte.isBlank b = false) (h2 : Byte.isDigit b = false)
    (h3 : Byte.isWordStart b = false) (h4 : b ≠ Byte.quote) (h5 : NoComment b r) :
    cut b r = match Mark.longest? (b :: r) with
      | some m => (.mark m, m.bytes.length)
      | none => (.stray b, 1) := by
  have h6 : (b == Byte.slash && r.head? == some Byte.slash) = false := by
    rw [Bool.eq_false_iff]
    simp only [ne_eq, Bool.and_eq_true, beq_iff_eq, not_and]
    intro hb hr
    exact (h5 hb _ hr).1 rfl
  have h7 : (b == Byte.slash && r.head? == some Byte.star) = false := by
    rw [Bool.eq_false_iff]
    simp only [ne_eq, Bool.and_eq_true, beq_iff_eq, not_and]
    intro hb hr
    exact (h5 hb _ hr).2 rfl
  have h8 : (b == Byte.quote) = false := by simpa using h4
  cases h9 : Mark.longest? (b :: r) <;> simp only [cut, h1, h2, h3, h6, h7, h8, h9, Bool.false_eq_true, if_false]

/-! ### Every piece is in its class -/

private theorem mem_of_halts_ne {x : UInt8} {w t : List UInt8} (hw : ∀ c ∈ w, (c != x) = true)
    (ht : Byte.Halts (· != x) t) (h : x ∈ w ++ t) : x ∉ w ∧ ∃ t', t = x :: t' := by
  have hx : x ∉ w := by
    intro hx
    simpa using hw x hx
  refine ⟨hx, ?_⟩
  cases t with
  | nil => simp [hx] at h
  | cons c t =>
    rw [Byte.halts_cons] at ht
    exact ⟨t, by simpa using ht⟩

private theorem admits_stray {b : UInt8} {r : List UInt8} (h1 : Byte.isBlank b = false) (h2 : Byte.isDigit b = false)
    (h3 : Byte.isWordStart b = false) (h4 : b ≠ Byte.quote) (h : Mark.longest? (b :: r) = none) :
    Shape.Admits (.stray b) [b] r := by
  refine Or.inr ⟨b, rfl, rfl, ?_⟩
  have h5 : b ≠ Byte.slash := by
    rintro rfl
    exact Mark.bytes_ne_cons h .slash [] Mark.bytes_slash
  intro s q rest hm
  generalize e : b :: q = p at hm
  cases hm with
  | mark m => exact Mark.bytes_ne_cons h m q e.symm
  | number hn =>
    obtain ⟨d, q', rfl, hd⟩ := hn.exists_cons
    cases e
    rw [h2] at hd
    cases hd
  | blockComment hc =>
    obtain ⟨q', rfl⟩ := hc.exists_cons
    cases e
    exact h5 rfl
  | _ => simp_all

theorem isWordByte_of_mem {b : UInt8} {w : List UInt8} (hb : Byte.isWordStart b)
    (hw : ∀ c ∈ w, Byte.isWordByte c) : ∀ c ∈ b :: w, Byte.isWordByte c := by
  intro c hc
  rcases List.mem_cons.1 hc with rfl | hc
  · rw [Byte.isWordByte, hb, Bool.true_or]
  · exact hw c hc

theorem ne_newline_of_mem {w : List UInt8} (hw : Byte.newline ∉ w) :
    ∀ c ∈ Byte.slash :: Byte.slash :: w, (c != Byte.newline) = true := by
  intro c hc
  rw [bne_iff_ne]
  rintro rfl
  simp only [List.mem_cons] at hc
  rcases hc with hc | hc | hc
  · exact absurd hc (by decide)
  · exact absurd hc (by decide)
  · exact hw hc

theorem takeWhile_word {b : UInt8} {w t : List UInt8} (hb : Byte.isWordStart b)
    (hw : ∀ c ∈ w, Byte.isWordByte c) (ht : Byte.Halts Byte.isWordByte t) :
    (b :: (w ++ t)).takeWhile Byte.isWordByte = b :: w := by
  rw [← List.cons_append, Byte.takeWhile_append (isWordByte_of_mem hb hw) ht]

theorem takeWhile_lineComment {w t : List UInt8} (hw : Byte.newline ∉ w)
    (ht : Byte.Halts (· != Byte.newline) t) :
    (Byte.slash :: Byte.slash :: (w ++ t)).takeWhile (· != Byte.newline) = Byte.slash :: Byte.slash :: w := by
  rw [← List.cons_append, ← List.cons_append, Byte.takeWhile_append (ne_newline_of_mem hw) ht]

theorem cut_string {w : List UInt8} (hw : Byte.quote ∉ w) (t : List UInt8) :
    cut Byte.quote (w ++ Byte.quote :: t) = (.string, w.length + 2) := by
  have hq : ∀ c ∈ w, (c != Byte.quote) = true := by
    intro c hc
    rw [bne_iff_ne]
    rintro rfl
    exact hw hc
  have ht : Byte.Halts (· != Byte.quote) (Byte.quote :: t) := Byte.halts_cons.2 (by simp)
  rw [cut_quote, if_pos (by simp), Byte.takeWhile_append hq ht]

/-- The first piece is in the class of its shape, and what follows does not continue it. -/
theorem exists_admits (b : UInt8) (r : List UInt8) :
    ∃ s p rest, b :: r = p ++ rest ∧ cut b r = (s, p.length) ∧ s.Admits p rest ∧ s.Stops p rest := by
  by_cases h1 : Byte.isBlank b
  · exact ⟨_, [b], r, rfl, cut_of_isBlank h1 r, Or.inl (.blank h1), trivial⟩
  by_cases h2 : Byte.isDigit b
  · obtain ⟨n, p, rest, e, hl, hp, hr⟩ := exists_numeral h2 r
    exact ⟨_, p, rest, e, by rw [cut_of_isDigit h2, hl], Or.inl (.number hp), hr⟩
  by_cases h3 : Byte.isWordStart b
  · obtain ⟨w, t, rfl, hw, ht⟩ := Byte.exists_run Byte.isWordByte r
    exact ⟨_, b :: w, t, rfl, by rw [cut_of_isWordStart h3, takeWhile_word h3 hw ht], Or.inl (.word h3 hw), ht⟩
  rw [Bool.not_eq_true] at h1 h2 h3
  by_cases h4 : b = Byte.quote
  · subst h4
    by_cases hq : Byte.quote ∈ r
    · obtain ⟨w, t, rfl, hw, ht⟩ := Byte.exists_run (· != Byte.quote) r
      obtain ⟨hwq, t, rfl⟩ := mem_of_halts_ne hw ht hq
      exact ⟨_, Byte.quote :: (w ++ [Byte.quote]), t, by simp, by simp [cut_string hwq], Or.inl (.string hwq), trivial⟩
    · exact ⟨_, Byte.quote :: r, [], by simp, by simp [cut_quote, hq], Or.inl (.openString hq), trivial⟩
  by_cases h5 : NoComment b r
  · have hcut := cut_of_other h1 h2 h3 h4 h5
    cases hm : Mark.longest? (b :: r) with
    | none =>
      rw [hm] at hcut
      exact ⟨_, [b], r, rfl, hcut, admits_stray h1 h2 h3 h4 hm, trivial⟩
    | some m =>
      rw [hm] at hcut
      obtain ⟨rest, e⟩ := Mark.bytes_prefix_of_longest? hm
      refine ⟨_, m.bytes, rest, e.symm, hcut, Or.inl (.mark m), Mark.halts_of_longest? (e ▸ hm), ?_⟩
      rintro rfl
      rw [Mark.bytes_slash, List.singleton_append, List.cons.injEq] at e
      rw [← e.1, ← e.2] at h5
      exact h5 rfl
  · simp only [NoComment, Classical.not_imp, Classical.not_forall] at h5
    obtain ⟨rfl, c, hc, h5⟩ := h5
    obtain ⟨t, rfl⟩ := List.head?_eq_some_iff.1 hc
    by_cases hs : c = Byte.slash
    · subst hs
      obtain ⟨w, u, rfl, hw, hu⟩ := Byte.exists_run (· != Byte.newline) t
      have hn : Byte.newline ∉ w := fun hn => by simpa using hw _ hn
      exact ⟨_, Byte.slash :: Byte.slash :: w, u, rfl, by rw [cut_slash_slash, takeWhile_lineComment hn hu],
        Or.inl (.lineComment hn), hu⟩
    · obtain rfl : c = Byte.star := Classical.byContradiction fun hc => h5 ⟨hs, hc⟩
      have hcut := cut_slash_star t
      cases hk : commentLength? 0 2 t with
      | none =>
        rw [hk] at hcut
        have hm := Shape.Matches.openComment (commentLength?_eq_none_iff.1 hk)
        exact ⟨_, _, [], by rw [List.append_nil], hcut, Or.inl hm, trivial⟩
      | some k =>
        rw [hk] at hcut
        have hb := commentLength?_bounds hk
        refine ⟨_, _, _, (List.take_append_drop k _).symm, ?_, Or.inl (.blockComment (isComment_take hk)), trivial⟩
        rw [hcut, List.length_take, List.length_cons, List.length_cons, Nat.min_eq_left (by omega)]

end Piece

end ScriptLexer
