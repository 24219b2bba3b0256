import ScriptLexer.Numeral
import ScriptLexer.Piece.Cut

/-!
# How numerals are spelled

A numeral is spelled by its digits, with a point before the fraction if there is one (`Numeral.Spelled`).  The key
facts: `Numeral.ofBytes?` reads exactly these spellings (`Numeral.ofBytes?_eq_some_iff`), and `Piece.numeralLength` is
the length of the longest one at the start of the bytes (`Piece.exists_numeral`, `Piece.numeralLength_append`,
`Piece.length_le_numeralLength`).
-/

namespace ScriptLexer

/-- The bytes spell the numeral. -/
inductive Numeral.Spelled : Numeral → List UInt8 → Prop where
  | whole {w : List UInt8} : w ≠ [] → (∀ c ∈ w, Byte.isDigit c) → Spelled ⟨w, []⟩ w
  | fraction {w f : List UInt8} : w ≠ [] → (∀ c ∈ w, Byte.isDigit c) → f ≠ [] → (∀ c ∈ f, Byte.isDigit c) →
      Spelled ⟨w, f⟩ (w ++ Byte.dot :: f)

/-! ### Runs of bytes -/

/-- The bytes do not begin with a byte of the class `p`. -/
def Byte.Halts (p : UInt8 → Bool) (bs : List UInt8) : Prop :=
  ∀ c ∈ bs.head?, p c = false

theorem Byte.halts_nil (p : UInt8 → Bool) : Byte.Halts p [] := by
  intro c hc
  cases hc

theorem Byte.halts_cons {p : UInt8 → Bool} {c : UInt8} {bs : List UInt8} : Byte.Halts p (c :: bs) ↔ p c = false := by
  simp [Byte.Halts]

theorem Byte.takeWhile_eq_nil_iff {p : UInt8 → Bool} {bs : List UInt8} : bs.takeWhile p = [] ↔ Byte.Halts p bs := by
  cases bs with
  | nil => simp [Byte.halts_nil]
  | cons c bs =>
    rw [Byte.halts_cons, List.takeWhile_cons]
    cases p c <;> simp

theorem Byte.takeWhile_append {p : UInt8 → Bool} {w bs : List UInt8} (hw : ∀ c ∈ w, p c) (h : Byte.Halts p bs) :
    (w ++ bs).takeWhile p = w := by
  rw [List.takeWhile_append_of_pos hw, Byte.takeWhile_eq_nil_iff.2 h, List.append_nil]

theorem Byte.dropWhile_append {p : UInt8 → Bool} {w bs : List UInt8} (hw : ∀ c ∈ w, p c) (h : Byte.Halts p bs) :
    (w ++ bs).dropWhile p = bs := by
  rw [List.dropWhile_append_of_pos hw]
  cases bs with
  | nil => rfl
  | cons c bs =>
    rw [Byte.halts_cons] at h
    simp [h]

theorem Byte.exists_run (p : UInt8 → Bool) (bs : List UInt8) :
    ∃ w r, bs = w ++ r ∧ (∀ c ∈ w, p c) ∧ Byte.Halts p r := by
  refine ⟨bs.takeWhile p, bs.dropWhile p, List.takeWhile_append_dropWhile.symm, ?_, ?_⟩
  · intro c hc
    exact List.all_eq_true.1 List.all_takeWhile c hc
  · intro c hc
    have h := List.head?_dropWhile_not p bs
    rwa [Option.mem_def.1 hc] at h

private theorem Byte.halts_isDigit_dot (f : List UInt8) : Byte.Halts Byte.isDigit (Byte.dot :: f) :=
  Byte.halts_cons.2 (by decide)

namespace Numeral

theorem Spelled.exists_cons {n : Numeral} {p : List UInt8} (h : n.Spelled p) :
    ∃ b q, p = b :: q ∧ Byte.isDigit b := by
  cases h with
  | whole hne hw =>
    obtain ⟨b, q, rfl⟩ := List.exists_cons_of_ne_nil hne
    exact ⟨b, q, rfl, hw b (by simp)⟩
  | fraction hne hw _ _ =>
    obtain ⟨b, q, rfl⟩ := List.exists_cons_of_ne_nil hne
    exact ⟨b, _, rfl, hw b (by simp)⟩

theorem Spelled.isDigit_or_eq_dot {n : Numeral} {p : List UInt8} (h : n.Spelled p) :
    ∀ b ∈ p, Byte.isDigit b ∨ b = Byte.dot := by
  intro b hb
  cases h with
  | whole _ hw => exact Or.inl (hw b hb)
  | fraction _ hw _ hf =>
    rw [List.mem_append, List.mem_cons] at hb
    rcases hb with hb | hb | hb
    · exact Or.inl (hw b hb)
    · exact Or.inr hb
    · exact Or.inl (hf b hb)

/-! ### Reading a numeral -/

private theorem ofBytes?_whole {w : List UInt8} (hw : ∀ c ∈ w, Byte.isDigit c) :
    ofBytes? w = if w = [] then none else some ⟨w, []⟩ := by
  have ht := Byte.takeWhile_append hw (Byte.halts_nil _)
  have hd := Byte.dropWhile_append hw (Byte.halts_nil _)
  rw [List.append_nil] at ht hd
  unfold ofBytes?
  simp [ht, hd]

private theorem ofBytes?_point {w : List UInt8} (hw : ∀ c ∈ w, Byte.isDigit c) {b : UInt8} {f : List UInt8}
    (hb : Byte.Halts Byte.isDigit (b :: f)) :
    ofBytes? (w ++ b :: f) =
      if w ≠ [] ∧ b = Byte.dot ∧ f ≠ [] ∧ f.all Byte.isDigit then some ⟨w, f⟩ else none := by
  unfold ofBytes?
  rw [Byte.takeWhile_append hw hb, Byte.dropWhile_append hw hb]
  by_cases h : w = [] <;> simp [h, and_assoc]

theorem ofBytes?_eq_some_iff {bs : List UInt8} {n : Numeral} : ofBytes? bs = some n ↔ n.Spelled bs := by
  constructor
  · intro h
    obtain ⟨w, r, rfl, hw, hr⟩ := Byte.exists_run Byte.isDigit bs
    cases r with
    | nil =>
      rw [List.append_nil, ofBytes?_whole hw] at h
      split at h
      · cases h
      · next hne =>
        cases h
        rw [List.append_nil]
        exact .whole hne hw
    | cons b f =>
      rw [ofBytes?_point hw hr] at h
      split at h
      · next hf =>
        obtain ⟨hne, rfl, hf, hd⟩ := hf
        cases h
        exact .fraction hne hw hf (List.all_eq_true.1 hd)
      · cases h
  · intro h
    cases h with
    | whole hne hw => rw [ofBytes?_whole hw, if_neg hne]
    | fraction hne hw hf hd =>
      rw [ofBytes?_point hw (Byte.halts_isDigit_dot _), if_pos ⟨hne, rfl, hf, List.all_eq_true.2 hd⟩]

/-- No bytes spell two numerals. -/
theorem Spelled.unique {n n' : Numeral} {p : List UInt8} (h : n.Spelled p) (h' : n'.Spelled p) : n = n' := by
  have e := ofBytes?_eq_some_iff.2 h
  rwa [ofBytes?_eq_some_iff.2 h', Option.some.injEq, eq_comm] at e

end Numeral

/-! ### The longest numeral -/

namespace Piece

private theorem numeralLength_whole {w : List UInt8} (hw : ∀ c ∈ w, Byte.isDigit c) : numeralLength w = w.length := by
  have ht := Byte.takeWhile_append hw (Byte.halts_nil _)
  have hd := Byte.dropWhile_append hw (Byte.halts_nil _)
  rw [List.append_nil] at ht hd
  unfold numeralLength
  simp [ht, hd]

private theorem numeralLength_point {w : List UInt8} (hw : ∀ c ∈ w, Byte.isDigit c) {b : UInt8} {r : List UInt8}
    (hb : Byte.Halts Byte.isDigit (b :: r)) :
    numeralLength (w ++ b :: r) =
      if b = Byte.dot ∧ r.takeWhile Byte.isDigit ≠ [] then w.length + 1 + (r.takeWhile Byte.isDigit).length
      else w.length := by
  unfold numeralLength
  rw [Byte.takeWhile_append hw hb, Byte.dropWhile_append hw hb]
  simp

/-- The bytes after a numeral do not continue it.  A point continues it only if the numeral has none and a digit
follows. -/
def NumeralHalts (p rest : List UInt8) : Prop :=
  Byte.Halts Byte.isDigit rest ∧ (Byte.dot ∉ p → ∀ r, rest = Byte.dot :: r → Byte.Halts Byte.isDigit r)

private theorem dot_not_mem {w : List UInt8} (hw : ∀ c ∈ w, Byte.isDigit c) : Byte.dot ∉ w := by
  intro h
  exact absurd (hw _ h) (by decide)

theorem exists_numeral {b : UInt8} (h : Byte.isDigit b) (r : List UInt8) :
    ∃ n p rest, b :: r = p ++ rest ∧ numeralLength (b :: r) = p.length ∧ Numeral.Spelled n p ∧
      NumeralHalts p rest := by
  obtain ⟨w, t, e, hw, ht⟩ := Byte.exists_run Byte.isDigit (b :: r)
  have hne : w ≠ [] := by
    rintro rfl
    rw [List.nil_append] at e
    rw [← e, Byte.halts_cons] at ht
    rw [ht] at h
    cases h
  rw [e]
  cases t with
  | nil =>
    refine ⟨_, w, [], rfl, ?_, .whole hne hw, Byte.halts_nil _, fun _ r hr => ?_⟩
    · rw [List.append_nil, numeralLength_whole hw]
    · cases hr
  | cons c t =>
    by_cases hc : c = Byte.dot ∧ t.takeWhile Byte.isDigit ≠ []
    · obtain ⟨f, u, rfl, hf, hu⟩ := Byte.exists_run Byte.isDigit t
      rw [Byte.takeWhile_append hf hu] at hc
      obtain ⟨rfl, hfne⟩ := hc
      refine ⟨_, w ++ Byte.dot :: f, u, by simp, ?_, .fraction hne hw hfne hf, hu, fun hd => absurd ?_ hd⟩
      · rw [numeralLength_point hw ht, Byte.takeWhile_append hf hu, if_pos ⟨rfl, hfne⟩, List.length_append,
          List.length_cons]
        omega
      · simp
    · refine ⟨_, w, c :: t, rfl, ?_, .whole hne hw, ht, fun _ r hr => ?_⟩
      · rw [numeralLength_point hw ht, if_neg hc]
      · rw [List.cons.injEq] at hr
        obtain ⟨rfl, rfl⟩ := hr
        rw [not_and, Classical.not_not] at hc
        exact Byte.takeWhile_eq_nil_iff.1 (hc rfl)

/-- A numeral that the bytes after it do not continue is the longest one. -/
theorem numeralLength_append {n : Numeral} {p rest : List UInt8} (h : n.Spelled p) (hr : NumeralHalts p rest) :
    numeralLength (p ++ rest) = p.length := by
  cases h with
  | whole hne hw =>
    cases rest with
    | nil => rw [List.append_nil, numeralLength_whole hw]
    | cons c t =>
      rw [numeralLength_point hw hr.1, if_neg]
      rintro ⟨rfl, hc⟩
      exact hc (Byte.takeWhile_eq_nil_iff.2 (hr.2 (dot_not_mem hw) t rfl))
  | @fraction w f hne hw hf hd =>
    have ht := Byte.takeWhile_append hd hr.1
    rw [List.append_assoc, List.cons_append, numeralLength_point hw (Byte.halts_isDigit_dot _), ht, if_pos ⟨rfl, hf⟩,
      List.length_append, List.length_cons]
    omega

theorem length_le_numeralLength {n : Numeral} {p : List UInt8} (h : n.Spelled p) (rest : List UInt8) :
    p.length ≤ numeralLength (p ++ rest) := by
  cases h with
  | whole hne hw =>
    obtain ⟨v, t, rfl, hv, ht⟩ := Byte.exists_run Byte.isDigit rest
    have hpv : ∀ c ∈ p ++ v, Byte.isDigit c := by
      intro c hc
      exact (List.mem_append.1 hc).elim (hw c) (hv c)
    rw [← List.append_assoc]
    cases t with
    | nil =>
      rw [List.append_nil, numeralLength_whole hpv, List.length_append]
      omega
    | cons c t =>
      rw [numeralLength_point hpv ht, List.length_append]
      split <;> omega
  | @fraction w f hne hw hf hd =>
    have ht : (f ++ rest).takeWhile Byte.isDigit = f ++ rest.takeWhile Byte.isDigit := List.takeWhile_append_of_pos hd
    have hne : f ++ rest.takeWhile Byte.isDigit ≠ [] := by simp [hf]
    rw [List.append_assoc, List.cons_append, numeralLength_point hw (Byte.halts_isDigit_dot _), ht, if_pos ⟨rfl, hne⟩,
      List.length_append, List.length_append, List.length_cons]
    omega

end Piece

end ScriptLexer
