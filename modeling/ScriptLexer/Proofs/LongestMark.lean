import ScriptLexer.Byte
import ScriptLexer.Token.Mark

/-!
# The longest mark

`Mark.longest?` looks at two bytes.  The key facts: a mark that the next byte does not continue is the longest one
(`Mark.longest?_append`), any mark at the start of the bytes is the longest one or shorter
(`Mark.exists_longest?`), and a byte that is no mark begins none (`Mark.bytes_ne_cons`).  At most two marks begin with
the same byte, and then the byte after it decides (`Mark.longest?_of_beginningWith_pair`).
-/

namespace ScriptLexer.Mark

/-- The first byte of the bytes does not make a longer mark of the mark. -/
def Halts (m : Mark) (bs : List UInt8) : Prop :=
  ∀ c ∈ bs.head?, ofBytes? (m.bytes ++ [c]) = none

theorem head?_bytes (m : Mark) : ∀ b ∈ m.bytes.head?, Byte.isBlank b = false ∧ Byte.isDigit b = false ∧
    Byte.isWordStart b = false ∧ b ≠ Byte.quote ∧ (ofBytes? [b]).isSome := by
  have table : (m.bytes.head?.all fun b => !Byte.isBlank b && !Byte.isDigit b && !Byte.isWordStart b &&
      b != Byte.quote && (ofBytes? [b]).isSome) = true := by
    cases m <;> decide
  intro b hb
  rw [Option.mem_def.1 hb] at table
  simpa [and_assoc] using table

theorem lt_of_mem_bytes (m : Mark) : ∀ b ∈ m.bytes, b < 0x80 := by
  have table : (m.bytes.all fun b => b < 0x80) = true := by
    cases m <;> decide
  simpa using table

theorem newline_notMem_bytes (m : Mark) : Byte.newline ∉ m.bytes := by
  cases m <;> decide

theorem bytes_slash : slash.bytes = [Byte.slash] := by
  decide

theorem mem_head?_bytes {m : Mark} {rest : List UInt8} {b : UInt8} {r : List UInt8} (e : b :: r = m.bytes ++ rest) :
    b ∈ m.bytes.head? := by
  have hl : 0 < m.bytes.length := by
    have := m.length_bytes
    omega
  obtain ⟨x, q, hx⟩ := List.exists_cons_of_length_pos hl
  rw [hx, List.cons_append, List.cons.injEq] at e
  rw [hx, e.1]
  rfl

theorem eq_slash {m : Mark} {rest r : List UInt8} (e : Byte.slash :: r = m.bytes ++ rest) : m = slash ∧ r = rest := by
  have table : ∀ m : Mark, Byte.slash ∈ m.bytes.head? → m = slash := by
    intro m
    cases m <;> decide
  obtain rfl := table m (mem_head?_bytes e)
  rw [bytes_slash, List.singleton_append, List.cons.injEq] at e
  exact ⟨rfl, e.2⟩

/-- A mark that is not continued is the longest mark. -/
theorem longest?_append {m : Mark} {rest : List UInt8} (h : m.Halts rest) : longest? (m.bytes ++ rest) = some m := by
  have hm := ofBytes?_eq_some_iff.2 (rfl : m.bytes = m.bytes)
  unfold longest?
  -- a mark of two bytes cannot be continued
  rcases m.length_bytes with hl | hl
  · obtain ⟨b, e⟩ := List.length_eq_one_iff.1 hl
    rw [e] at hm ⊢
    cases rest with
    | nil => simp [hm]
    | cons c t =>
      have hc := h c (by simp)
      rw [e, List.singleton_append] at hc
      simp [hm, hc]
  · rw [List.take_left' hl, hm, Option.some_or]

private theorem longest?_append_of_mem {m m' : Mark} {c : UInt8} {rest : List UInt8} (hc : c ∈ rest.head?)
    (h : ofBytes? (m.bytes ++ [c]) = some m') :
    longest? (m.bytes ++ rest) = some m' ∧ m.bytes.length < m'.bytes.length := by
  have hl : m'.bytes.length = m.bytes.length + 1 := by
    rw [ofBytes?_eq_some_iff.1 h, List.length_append, List.length_singleton]
  have h1 := m.length_bytes
  have h2 := m'.length_bytes
  obtain ⟨b, e⟩ := List.length_eq_one_iff.1 (show m.bytes.length = 1 by omega)
  obtain ⟨t, rfl⟩ := List.head?_eq_some_iff.1 hc
  refine ⟨?_, by omega⟩
  rw [e, List.singleton_append] at h ⊢
  rw [longest?, List.take_succ_cons, List.take_succ_cons, List.take_zero, h, Option.some_or]

theorem exists_longest? (m : Mark) (rest : List UInt8) :
    ∃ m', longest? (m.bytes ++ rest) = some m' ∧ (m' = m ∨ m.bytes.length < m'.bytes.length) := by
  by_cases h : m.Halts rest
  · exact ⟨m, longest?_append h, Or.inl rfl⟩
  · simp only [Halts, Classical.not_forall] at h
    obtain ⟨c, hc, h⟩ := h
    obtain ⟨m', hm'⟩ := Option.ne_none_iff_exists'.1 h
    have hl := longest?_append_of_mem hc hm'
    exact ⟨m', hl.1, Or.inr hl.2⟩

theorem halts_of_longest? {m : Mark} {rest : List UInt8} (h : longest? (m.bytes ++ rest) = some m) :
    m.Halts rest := by
  intro c hc
  rw [Option.eq_none_iff_forall_ne_some]
  intro m' hm'
  have hl := longest?_append_of_mem hc hm'
  rw [h, Option.some.injEq] at hl
  rw [hl.1] at hl
  exact Nat.lt_irrefl _ hl.2

theorem bytes_ne_cons {b : UInt8} {r : List UInt8} (h : longest? (b :: r) = none) (m : Mark) (q : List UInt8) :
    m.bytes ≠ b :: q := by
  intro e
  have hm := (m.head?_bytes b (by simp [e])).2.2.2.2
  rw [longest?, Option.or_eq_none_iff] at h
  have h1 : ofBytes? [b] = none := h.2
  rw [h1] at hm
  cases hm

/-! ### Marks by their first byte -/

/-- The marks whose first byte is `b`. -/
def beginningWith (b : UInt8) : List Mark :=
  all.filter fun m => m.bytes.head? == some b

theorem mem_beginningWith {b : UInt8} {m : Mark} : m ∈ beginningWith b ↔ m.bytes.head? = some b := by
  simp [beginningWith, m.mem_all]

private theorem ofBytes?_pair_eq_none {b c : UInt8} (h : ∀ m ∈ beginningWith b, m.bytes ≠ [b, c]) :
    ofBytes? [b, c] = none := by
  rw [Option.eq_none_iff_forall_ne_some]
  intro m hm
  have e := ofBytes?_eq_some_iff.1 hm
  exact h m (mem_beginningWith.2 (by rw [e]; rfl)) e

private theorem longest?_of_bytes_eq_singleton {b : UInt8} {m : Mark} (hm : m.bytes = [b]) {r : List UInt8}
    (h : ∀ c ∈ r.head?, ∀ m' ∈ beginningWith b, m'.bytes ≠ [b, c]) : longest? (b :: r) = some m := by
  have hr : m.Halts r := by
    intro c hc
    rw [hm]
    exact ofBytes?_pair_eq_none (h c hc)
  rw [← List.singleton_append, ← hm]
  exact longest?_append hr

/-- Where one mark begins with a byte, it is that byte. -/
theorem longest?_of_beginningWith_singleton {b : UInt8} {m : Mark} (hm : m.bytes = [b]) (h : beginningWith b = [m])
    (r : List UInt8) : longest? (b :: r) = some m := by
  apply longest?_of_bytes_eq_singleton hm
  simp [h, hm]

/-- Where two marks begin with a byte, the next byte tells which of them is the longest one. -/
theorem longest?_of_beginningWith_pair {b c : UInt8} {m m' : Mark} (hm : m.bytes = [b]) (hm' : m'.bytes = [b, c])
    (h : beginningWith b = [m, m']) (r : List UInt8) :
    longest? (b :: r) = some (if r.head? == some c then m' else m) := by
  by_cases hc : r.head? = some c
  · obtain ⟨t, rfl⟩ := List.head?_eq_some_iff.1 hc
    have h2 : ofBytes? ((b :: c :: t).take 2) = some m' := ofBytes?_eq_some_iff.2 hm'
    rw [longest?, h2, Option.some_or, if_pos (beq_iff_eq.2 hc)]
  · rw [if_neg (by simpa using hc)]
    apply longest?_of_bytes_eq_singleton hm
    intro d hd
    have hne : c ≠ d := by
      rintro rfl
      exact hc hd
    simp [h, hm, hm', hne]

theorem longest?_of_beginningWith_nil {b : UInt8} (h : beginningWith b = []) (r : List UInt8) :
    longest? (b :: r) = none := by
  rw [Option.eq_none_iff_forall_ne_some]
  intro m hm
  obtain ⟨t, ht⟩ := bytes_prefix_of_longest? hm
  have hmem := mem_beginningWith.2 (mem_head?_bytes ht.symm)
  rw [h] at hmem
  cases hmem

end ScriptLexer.Mark
