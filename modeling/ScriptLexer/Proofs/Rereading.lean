import ScriptLexer.Proofs.DecimalText
import ScriptLexer.Proofs.Fragments
import ScriptLexer.Proofs.Lines
import ScriptLexer.Proofs.Rounding

/-!
# Reading a rendered number again

The decimal text of a finite number without a sign is a script of one number token, whose value is the number nearest to
the millionths in the text.  The key facts: this number has the same millionths (`Binary64.millionths_reread`) and hence
the same text, and it is the number that was rendered if that is at least `2 ^ 33`, where numbers are more than a
millionth apart (`Binary64.reread_eq`).
-/

namespace ScriptLexer

namespace Binary64

/-! ### Numbers without a sign -/

theorem isNaN_eq_false {x : Binary64} (h : x.isFinite) : x.isNaN = false := by
  rw [isFinite, decide_eq_true_eq] at h
  rw [isNaN, decide_eq_false_iff_not]
  omega

theorem eq_of_magnitude_eq {x y : Binary64} (hx : x.isNegative = false) (hy : y.isNegative = false)
    (h : x.magnitude = y.magnitude) : x = y := by
  rw [isNegative, decide_eq_false_iff_not, Nat.not_le] at hx hy
  rw [magnitude, magnitude, Nat.mod_eq_of_lt hx, Nat.mod_eq_of_lt hy] at h
  rw [mk.injEq]
  exact UInt64.toNat_inj.1 h

theorem render_eq {x : Binary64} (hf : x.isFinite) (hn : x.isNegative = false) :
    x.render = String.ofList (trimFraction (sixPlaces x.millionths)) := by
  rw [render, isNaN_eq_false hf, hn, hf]
  exact String.empty_append

/-! ### The number that is read -/

/-- The number that the decimal text of a number is read as. -/
def reread (x : Binary64) : Binary64 :=
  nearest x.millionths (Nat.pow 10 6)

private theorem toBinary64_numeralOf (m : Nat) : (numeralOf m).toBinary64 = nearest m (Nat.pow 10 6) := by
  have hd := (numeralOf m).denominator_pos
  rw [Numeral.toBinary64, ← nearest_mul_right _ _ (Nat.pow_pos (by decide) : 0 < Nat.pow 10 6), numerator_numeralOf,
    Nat.mul_comm _ (Nat.pow 10 6), nearest_mul_right _ _ hd]

private theorem isNegative_reread (x : Binary64) : x.reread.isNegative = false :=
  isNegative_nearest _ _

private theorem shortSteps_millionths : ShortSteps (Nat.pow 2 1074) (Nat.pow 10 6) 1055 :=
  ⟨by decide +kernel, by decide +kernel, by decide +kernel⟩

private theorem restep_millionths_lt {x : Binary64} (hf : x.isFinite) :
    restep (Nat.pow 2 1074) (Nat.pow 10 6) x.magnitude < infinityMagnitude := by
  rw [isFinite, decide_eq_true_eq] at hf
  exact restep_lt shortSteps_millionths _ (by decide) hf

private theorem magnitude_reread {x : Binary64} (hf : x.isFinite) :
    x.reread.magnitude = restep (Nat.pow 2 1074) (Nat.pow 10 6) x.magnitude := by
  rw [reread, magnitude_nearest]
  exact Nat.min_eq_left (Nat.le_of_lt (restep_millionths_lt hf))

private theorem isFinite_reread {x : Binary64} (hf : x.isFinite) : x.reread.isFinite := by
  rw [isFinite, decide_eq_true_eq, magnitude_reread hf]
  exact restep_millionths_lt hf

theorem millionths_reread {x : Binary64} (hf : x.isFinite) : x.reread.millionths = x.millionths := by
  rw [millionths, units_eq, magnitude_reread hf]
  exact roundHalfEven_restep shortSteps_millionths _

private theorem render_reread {x : Binary64} (hf : x.isFinite) (hn : x.isNegative = false) :
    x.reread.render = x.render := by
  rw [render_eq hf hn, render_eq (isFinite_reread hf) (isNegative_reread x), millionths_reread hf]

theorem reread_eq {x : Binary64} (hf : x.isFinite) (hn : x.isNegative = false)
    (h : Nat.pow 2 33 * Nat.pow 2 1074 ≤ x.units) : x.reread = x := by
  apply eq_of_magnitude_eq (isNegative_reread x) hn
  rw [magnitude_reread hf]
  exact restep_eq shortSteps_millionths _ (Nat.le_trans (by decide +kernel) h)

/-- Below `2 ^ 33` a number may come back as another one. -/
example : reread ⟨0x3FD5555555555555⟩ = ⟨0x3FD55553EF6B5D46⟩ := by
  decide +kernel

end Binary64

/-! ### A script of one numeral -/

theorem tokenize_of_spelled {σ : Type} [Sink σ LexicalError] (sink : σ) {w : String} {n : Numeral}
    (h : n.Spelled (Text.bytes w)) :
    (tokenize w sink).1.toList = [⟨.number, w, some (.number n.toBinary64), 1⟩, .eof 1] ∧
      (tokenize w ({} : Storage LexicalError)).2.errors.toList = [] := by
  have hn : (Text.bytes w).count Byte.newline = 0 := List.count_eq_zero_of_not_mem (Piece.newline_notMem_of_spelled h)
  have ht := Fragment.gather_token?_pieces 1 (.number w n h)
  have he := Fragment.gather_error?_pieces 1 (.number w n h)
  rw [← Fragment.ofBytes_text, Fragment.text] at ht he
  rw [Fragment.newlines, Fragment.text, hn] at ht
  rw [TokenStream.toList, TokenStream.last, body_tokenize, endLine_tokenize, errors_tokenize, ht, he, hn]
  exact ⟨rfl, rfl⟩

/-- The text of a finite number without a sign is one number token, with no errors.  Its value is rendered as the same
text, and it is the number itself from `2 ^ 33` on. -/
theorem tokenize_render {σ : Type} [Sink σ LexicalError] (sink : σ) {x : Binary64} (hf : x.isFinite)
    (hn : x.isNegative = false) :
    ∃ y : Binary64,
      (tokenize (Literal.number x).render sink).1.toList =
        [⟨.number, (Literal.number x).render, some (.number y), 1⟩, .eof 1] ∧
      (tokenize (Literal.number x).render ({} : Storage LexicalError)).2.errors.toList = [] ∧
      (Literal.number y).render = (Literal.number x).render ∧
      (Nat.pow 2 33 * Nat.pow 2 1074 ≤ x.units → y = x) := by
  have hs : (Binary64.numeralOf x.millionths).Spelled (Text.bytes (Literal.number x).render) := by
    rw [Literal.render, Binary64.render_eq hf hn, Text.bytes_ofList_eq_encode]
    exact Binary64.spelled_numeralOf x.millionths
  obtain ⟨ht, he⟩ := tokenize_of_spelled sink hs
  rw [Binary64.toBinary64_numeralOf] at ht
  exact ⟨x.reread, ht, he, Binary64.render_reread hf hn, Binary64.reread_eq hf hn⟩

/-- The least number beyond `2 ^ 33` comes back from its text. -/
theorem tokenize_render_beyond_two_pow :
    (⟨0x4200000000000001⟩ : Binary64).isFinite ∧ (⟨0x4200000000000001⟩ : Binary64).isNegative = false ∧
    Nat.pow 2 33 * Nat.pow 2 1074 ≤ (⟨0x4200000000000001⟩ : Binary64).units ∧
    (Literal.number ⟨0x4200000000000001⟩).render = "8589934592.000002" ∧
    (tokenize "8589934592.000002" ({} : Storage LexicalError)).1.toList =
      [⟨.number, "8589934592.000002", some (.number ⟨0x4200000000000001⟩), 1⟩, .eof 1] ∧
    (tokenize "8589934592.000002" ({} : Storage LexicalError)).2.errors.toList = [] := by
  have hf : (⟨0x4200000000000001⟩ : Binary64).isFinite := by decide
  have hn : (⟨0x4200000000000001⟩ : Binary64).isNegative = false := by decide
  have hu : Nat.pow 2 33 * Nat.pow 2 1074 ≤ (⟨0x4200000000000001⟩ : Binary64).units := by decide +kernel
  have hr : (Literal.number ⟨0x4200000000000001⟩).render = "8589934592.000002" := by decide +kernel
  obtain ⟨y, ht, he, -, hy⟩ := tokenize_render ({} : Storage LexicalError) hf hn
  rw [hy hu, hr] at ht
  rw [hr] at he
  exact ⟨hf, hn, hu, hr, ht, he⟩

end ScriptLexer
