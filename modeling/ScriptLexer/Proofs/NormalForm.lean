import ScriptLexer.Proofs.DecimalText
import ScriptLexer.Proofs.ExactValue

/-!
# Numerals without superfluous zeros

A numeral is brought into normal form by dropping the zeros in front of its whole part, but for one digit, and those at
the end of its fraction.  The key facts: numerals of the same value have the same normal form
(`Numeral.normalize_eq_of_value_eq`), since filled up with zeros to the same length they have the same digits, and the
decimal text of a number of millionths is in normal form (`Binary64.normalize_numeralOf`).
-/

namespace ScriptLexer

/-- The digit `0`. -/
abbrev Byte.zero : UInt8 := 0x30

/-! ### Digits -/

namespace Byte

private theorem isDigit_iff {b : UInt8} : isDigit b ↔ 0x30 ≤ b.toNat ∧ b.toNat ≤ 0x39 := by
  simp [isDigit, UInt8.le_iff_toNat_le]

private theorem digitValue_lt {b : UInt8} (h : isDigit b) : digitValue b < 10 := by
  have hb := isDigit_iff.1 h
  unfold digitValue
  omega

private theorem digitValue_inj {b c : UInt8} (hb : isDigit b) (hc : isDigit c) (h : digitValue b = digitValue c) :
    b = c := by
  have hb := isDigit_iff.1 hb
  have hc := isDigit_iff.1 hc
  unfold digitValue at h
  exact UInt8.toNat_inj.1 (by omega)

end Byte

namespace Numeral

private theorem digitsValue_concat (ds : List UInt8) (d : UInt8) :
    digitsValue (ds ++ [d]) = 10 * digitsValue ds + Byte.digitValue d := by
  rw [digitsValue, List.foldl_concat]
  rfl

private theorem digitsValue_zeros_append (k : Nat) (ds : List UInt8) :
    digitsValue (List.replicate k Byte.zero ++ ds) = digitsValue ds := by
  induction k with
  | zero => rfl
  | succ k ih => exact ih

private theorem digitsValue_append_zeros (ds : List UInt8) (k : Nat) :
    digitsValue (ds ++ List.replicate k Byte.zero) = digitsValue ds * 10 ^ k := by
  induction k with
  | zero => rw [List.replicate_zero, List.append_nil, Nat.pow_zero, Nat.mul_one]
  | succ k ih =>
    have h0 : Byte.digitValue Byte.zero = 0 := rfl
    rw [List.replicate_succ', ← List.append_assoc, digitsValue_concat, ih, h0, Nat.add_zero, Nat.pow_succ',
      Nat.mul_left_comm]

/-- As many digits of the same value are the same digits. -/
private theorem eq_of_digitsValue_eq {ds ds' : List UInt8} (h : ∀ d ∈ ds, Byte.isDigit d)
    (h' : ∀ d ∈ ds', Byte.isDigit d)
    (hl : ds.length = ds'.length) (hv : digitsValue ds = digitsValue ds') : ds = ds' := by
  induction ds using List.reverseRecOn generalizing ds' with
  | nil => exact (List.length_eq_zero_iff.1 hl.symm).symm
  | append_singleton ds d ih =>
    have hne : ds' ≠ [] := by
      rintro rfl
      simp at hl
    obtain ⟨es, e, rfl⟩ := (List.eq_nil_or_concat' ds').resolve_left hne
    simp only [List.forall_mem_append, List.forall_mem_singleton] at h h'
    rw [digitsValue_concat, digitsValue_concat] at hv
    have hd := Byte.digitValue_lt h.2
    have he := Byte.digitValue_lt h'.2
    rw [ih h.1 h'.1 (by simpa using hl) (by omega), Byte.digitValue_inj h.2 h'.2 (by omega)]

/-! ### The normal form -/

/-- The numeral without the zeros in front of its whole part, but for one digit, and those at the end of its
fraction. -/
def normalize (n : Numeral) : Numeral :=
  let whole := n.whole.dropWhile (· == Byte.zero)
  ⟨if whole.isEmpty then [Byte.zero] else whole, n.fraction.rdropWhile (· == Byte.zero)⟩

private theorem dropWhile_zeros_append (k : Nat) (ds : List UInt8) :
    (List.replicate k Byte.zero ++ ds).dropWhile (· == Byte.zero) = ds.dropWhile (· == Byte.zero) := by
  refine List.dropWhile_append_of_pos fun d hd => ?_
  rw [List.eq_of_mem_replicate hd, beq_self_eq_true]

private theorem rdropWhile_append_zeros (ds : List UInt8) (k : Nat) :
    (ds ++ List.replicate k Byte.zero).rdropWhile (· == Byte.zero) = ds.rdropWhile (· == Byte.zero) := by
  rw [List.rdropWhile, List.reverse_append, List.reverse_replicate, dropWhile_zeros_append, ← List.rdropWhile]

/-- Zeros in front of the whole part and at the end of the fraction do not matter. -/
private theorem normalize_congr {n n' : Numeral} {i i' j j' : Nat}
    (hw : List.replicate i Byte.zero ++ n.whole = List.replicate i' Byte.zero ++ n'.whole)
    (hf : n.fraction ++ List.replicate j Byte.zero = n'.fraction ++ List.replicate j' Byte.zero) :
    n.normalize = n'.normalize := by
  have ew := congrArg (List.dropWhile (· == Byte.zero)) hw
  have ef := congrArg (List.rdropWhile (· == Byte.zero)) hf
  rw [dropWhile_zeros_append, dropWhile_zeros_append] at ew
  rw [rdropWhile_append_zeros, rdropWhile_append_zeros] at ef
  rw [normalize, normalize, ew, ef]

theorem Spelled.isDigit {n : Numeral} {p : List UInt8} (h : n.Spelled p) :
    ∀ d ∈ n.whole ++ n.fraction, Byte.isDigit d := by
  cases h with
  | whole _ hw =>
    rw [List.append_nil]
    exact hw
  | fraction _ hw _ hf => exact List.forall_mem_append.2 ⟨hw, hf⟩

/-- The digits of a numeral with zeros put around them. -/
private def padded (i : Nat) (n : Numeral) (j : Nat) : List UInt8 :=
  List.replicate i Byte.zero ++ (n.whole ++ n.fraction) ++ List.replicate j Byte.zero

private theorem length_padded (i : Nat) (n : Numeral) (j : Nat) :
    (padded i n j).length = i + (n.whole.length + n.fraction.length) + j := by
  simp [padded, Nat.add_assoc]

private theorem digitsValue_padded (i : Nat) (n : Numeral) (j : Nat) :
    digitsValue (padded i n j) = n.numerator * 10 ^ j := by
  rw [padded, List.append_assoc, digitsValue_zeros_append, digitsValue_append_zeros, numerator]

private theorem isDigit_of_mem_padded {n : Numeral} {p : List UInt8} (h : n.Spelled p) (i j : Nat) :
    ∀ d ∈ padded i n j, Byte.isDigit d := by
  have hz (k : Nat) : ∀ d ∈ List.replicate k Byte.zero, Byte.isDigit d := by
    intro d hd
    rw [List.eq_of_mem_replicate hd]
    rfl
  exact List.forall_mem_append.2 ⟨List.forall_mem_append.2 ⟨hz i, h.isDigit⟩, hz j⟩

private theorem padded_eq {n n' : Numeral} {p p' : List UInt8} (h : n.Spelled p) (h' : n'.Spelled p')
    (hv : n.value = n'.value) :
    padded n'.whole.length n n'.fraction.length = padded n.whole.length n' n.fraction.length := by
  apply eq_of_digitsValue_eq (isDigit_of_mem_padded h _ _) (isDigit_of_mem_padded h' _ _)
  · rw [length_padded, length_padded]
    omega
  · rw [digitsValue_padded, digitsValue_padded]
    exact value_eq_iff.1 hv

theorem normalize_eq_of_value_eq {n n' : Numeral} {p p' : List UInt8} (h : n.Spelled p) (h' : n'.Spelled p')
    (hv : n.value = n'.value) : n.normalize = n'.normalize := by
  have e := padded_eq h h' hv
  simp only [padded, List.append_assoc] at e
  rw [← List.append_assoc, ← List.append_assoc (List.replicate n.whole.length _)] at e
  obtain ⟨hw, hf⟩ := List.append_inj e (by simp [Nat.add_comm])
  exact normalize_congr hw hf

end Numeral

/-! ### The normal form of a decimal text -/

private theorem Text.ofNat_eq_zero_iff {c : Char} (h : c.isDigit) : UInt8.ofNat c.toNat = Byte.zero ↔ c = '0' := by
  have e : encode [c] = [UInt8.ofNat c.toNat] := encode_digits (List.forall_mem_singleton.2 h)
  have h0 : encode ['0'] = [Byte.zero] := by decide
  constructor
  · intro hz
    rw [hz, ← h0, encode_inj, List.cons.injEq] at e
    exact e.1
  · rintro rfl
    rfl

namespace Binary64

private theorem value_numeralOf (m : Nat) : (numeralOf m).value * 10 ^ 6 = m := by
  exact_mod_cast Numeral.value_mul_eq_iff.2 (numerator_numeralOf m)

/-- The digits of a number are a single zero, or they do not begin with one. -/
private theorem encode_toDigits (n : Nat) :
    Text.encode (Nat.toDigits 10 n) = [Byte.zero] ∨
      ∃ d ds, Text.encode (Nat.toDigits 10 n) = d :: ds ∧ d ≠ Byte.zero := by
  obtain ⟨c, cs, hcs⟩ := List.exists_cons_of_ne_nil (Nat.toDigits_ne_nil (b := 10) (n := n))
  have hc : c.isDigit := isDigit_of_mem_toDigits (hcs ▸ List.mem_cons_self)
  by_cases h0 : c = '0'
  · left
    rw [eq_zero_of_head?_toDigits (n := n) (by rw [hcs, h0]; rfl)]
    decide
  · right
    rw [Text.encode_digits fun _ => isDigit_of_mem_toDigits, hcs]
    exact ⟨_, _, List.map_cons, fun e => h0 ((Text.ofNat_eq_zero_iff hc).1 e)⟩

private theorem rdropWhile_shownPlaces (m : Nat) :
    (Text.encode (shownPlaces m)).rdropWhile (· == Byte.zero) = Text.encode (shownPlaces m) := by
  rw [Text.encode_digits fun _ => isDigit_of_mem_shownPlaces m]
  by_cases h : shownPlaces m = []
  · rw [h]
    rfl
  · obtain ⟨l, c, hl, h0, hc⟩ := exists_rdropWhile_eq_concat h
    rw [shownPlaces, hl, List.map_append, List.map_singleton, List.rdropWhile_concat_neg]
    rw [beq_iff_eq, Text.ofNat_eq_zero_iff (isDigit_of_mem_places m hc)]
    exact h0

theorem normalize_numeralOf (m : Nat) : (numeralOf m).normalize = numeralOf m := by
  rw [Numeral.normalize, numeralOf, rdropWhile_shownPlaces]
  rcases encode_toDigits (m / Nat.pow 10 6) with h | ⟨d, ds, h, hd⟩
  · rw [h]
    rfl
  · rw [h, List.dropWhile_cons_of_neg (by rwa [beq_iff_eq])]
    rfl

/-- The decimal text of a number of millionths spells the normal form of all numerals of that value. -/
theorem spelled_normalize {n : Numeral} {p : List UInt8} (h : n.Spelled p) {m : Nat} (hv : n.value * 10 ^ 6 = m) :
    n.normalize.Spelled (Text.encode (trimFraction (sixPlaces m))) := by
  have h6 : (10 : ℚ) ^ 6 ≠ 0 := pow_ne_zero 6 (by decide)
  have hs := spelled_numeralOf m
  rw [Numeral.normalize_eq_of_value_eq h hs (mul_right_cancel₀ h6 (hv.trans (value_numeralOf m).symm)),
    normalize_numeralOf]
  exact hs

end Binary64

end ScriptLexer
