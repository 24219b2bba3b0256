import Mathlib.Data.List.DropRight
import ScriptLexer.Proofs.Encoding

/-!
# The numeral in a decimal text

The decimal text of a number of millionths is its whole part in digits and, unless they are all zeros, a point and the
six places after it without the zeros at the end (`Binary64.trimFraction_sixPlaces`).  The key fact: its bytes spell a
numeral (`Binary64.spelled_numeralOf`) whose value is that number of millionths (`Binary64.numerator_numeralOf`), so no
two numbers of millionths have the same text (`Binary64.eq_of_trimFraction_eq`).
-/

namespace ScriptLexer

/-! ### Trimming -/

private theorem rdropWhile_append_cons {α : Type} {p : α → Bool} {a : α} (h : p a = false) (l l' : List α) :
    (l ++ a :: l').rdropWhile p = l ++ a :: l'.rdropWhile p := by
  induction l' using List.reverseRecOn with
  | nil => rw [List.rdropWhile_nil, List.rdropWhile_concat_neg _ _ _ (by simp [h])]
  | append_singleton l' x ih =>
    have e : l ++ a :: (l' ++ [x]) = (l ++ a :: l') ++ [x] := by simp
    rw [e, List.rdropWhile_concat, List.rdropWhile_concat, ih]
    split
    · rfl
    · exact e.symm

private theorem rdropWhile_beq_eq_self {α : Type} [BEq α] [LawfulBEq α] {a : α} {l : List α} (h : a ∉ l) :
    l.rdropWhile (· == a) = l := by
  rw [List.rdropWhile_eq_self_iff]
  intro hl he
  rw [beq_iff_eq] at he
  exact h (he ▸ List.getLast_mem hl)

/-- What is dropped from the end is so many copies of one element. -/
theorem exists_rdropWhile_append_replicate {α : Type} [BEq α] [LawfulBEq α] (a : α) (l : List α) :
    ∃ k, l = l.rdropWhile (· == a) ++ List.replicate k a := by
  have ha : ∀ c ∈ l.rtakeWhile (· == a), c = a := by
    intro c hc
    simpa using List.mem_rtakeWhile_imp hc
  exact ⟨_, by rw [← List.eq_replicate_of_mem ha, List.rdropWhile_append_rtakeWhile]⟩

/-- What is kept, unless it is nothing, ends in an element other than those dropped. -/
theorem exists_rdropWhile_eq_concat {α : Type} [BEq α] [LawfulBEq α] {a : α} {l : List α}
    (h : l.rdropWhile (· == a) ≠ []) : ∃ l' c, l.rdropWhile (· == a) = l' ++ [c] ∧ c ≠ a ∧ c ∈ l := by
  obtain ⟨l', c, e⟩ := (List.eq_nil_or_concat' _).resolve_left h
  refine ⟨l', c, e, ?_, (List.rdropWhile_prefix _ _).mem (e ▸ List.mem_concat_self)⟩
  have hlast := List.rdropWhile_last_not (· == a) l h
  simpa [e] using hlast

namespace Binary64

theorem trimFraction_eq (text : List Char) :
    trimFraction text = (text.rdropWhile (· == '0')).rdropWhile (· == '.') := by
  rw [trimFraction, List.rdropWhile, List.rdropWhile, List.reverse_reverse]

theorem trimFraction_point {w f : List Char} (hw : '.' ∉ w) (hf : '.' ∉ f) :
    trimFraction (w ++ '.' :: f) =
      if f.rdropWhile (· == '0') = [] then w else w ++ '.' :: f.rdropWhile (· == '0') := by
  rw [trimFraction_eq, rdropWhile_append_cons (by decide)]
  split
  · next h => rw [h, List.rdropWhile_concat_pos _ _ _ (by decide), rdropWhile_beq_eq_self hw]
  · next h =>
    -- the last digit protects the point
    obtain ⟨l, c, hl, -, hc⟩ := exists_rdropWhile_eq_concat h
    have hne : ¬ (c == '.') = true := fun he => hf (beq_iff_eq.1 he ▸ hc)
    have e : w ++ '.' :: (l ++ [c]) = (w ++ '.' :: l) ++ [c] := by simp
    rw [hl, e, List.rdropWhile_concat_neg (· == '.') _ _ hne]

end Binary64

/-! ### Digits and their bytes -/

theorem isDigit_of_mem_toDigits {n : Nat} {c : Char} (h : c ∈ Nat.toDigits 10 n) : c.isDigit :=
  Nat.isDigit_of_mem_toDigits (by decide) (by decide) h

theorem notMem_toDigits {c : Char} (h : c.isDigit = false) (n : Nat) : c ∉ Nat.toDigits 10 n := by
  intro hc
  rw [isDigit_of_mem_toDigits hc] at h
  cases h

/-- The digits of a number begin with a zero only if the number is zero. -/
theorem eq_zero_of_head?_toDigits {n : Nat} (h : (Nat.toDigits 10 n).head? = some '0') : n = 0 := by
  induction n using Nat.strongRecOn with
  | _ n ih =>
    rcases Nat.lt_or_ge n 10 with hn | hn
    · rw [Nat.toDigits_of_lt_base hn, List.head?_cons, Option.some.injEq] at h
      have hv := Nat.ofDigitChars_ten_toDigits (n := n)
      rw [Nat.toDigits_of_lt_base hn, h] at hv
      exact hv.symm
    · rw [Nat.toDigits_of_base_le (by decide) hn, List.head?_append_of_ne_nil _ Nat.toDigits_ne_nil] at h
      have h0 := ih (n / 10) (by omega) h
      omega

/-- Lists that are equal and have a separator are equal before it and after it. -/
theorem append_cons_inj {α : Type} {a : α} {xs xs' ys ys' : List α} (h : a ∉ xs) (h' : a ∉ xs')
    (e : xs ++ a :: ys = xs' ++ a :: ys') : xs = xs' ∧ ys = ys' := by
  induction xs generalizing xs' with
  | nil =>
    cases xs' with
    | nil => exact ⟨rfl, (List.cons.inj e).2⟩
    | cons x xs' =>
      rw [List.nil_append, List.cons_append, List.cons.injEq] at e
      exact absurd (by simp [e.1]) h'
  | cons x xs ih =>
    cases xs' with
    | nil =>
      rw [List.nil_append, List.cons_append, List.cons.injEq] at e
      exact absurd (by simp [e.1]) h
    | cons x' xs' =>
      rw [List.mem_cons, not_or] at h h'
      rw [List.cons_append, List.cons_append, List.cons.injEq] at e
      obtain ⟨rfl, rfl⟩ := ih h.2 h'.2 e.2
      exact ⟨by rw [e.1], rfl⟩

/-- A number is read back up to a character that is no digit. -/
theorem toDigits_append_inj {c : Char} (h : c.isDigit = false) {n n' : Nat} {xs xs' : List Char}
    (e : Nat.toDigits 10 n ++ c :: xs = Nat.toDigits 10 n' ++ c :: xs') : n = n' ∧ xs = xs' := by
  obtain ⟨hn, hx⟩ := append_cons_inj (notMem_toDigits h n) (notMem_toDigits h n') e
  rw [← Nat.ofDigitChars_ten_toDigits (n := n), hn, Nat.ofDigitChars_ten_toDigits]
  exact ⟨rfl, hx⟩

theorem Text.encode_digits {ds : List Char} (h : ∀ c ∈ ds, c.isDigit) :
    encode ds = ds.map fun c => UInt8.ofNat c.toNat := by
  induction ds with
  | nil => rfl
  | cons c ds ih =>
    rw [List.forall_mem_cons] at h
    have hc := (utf8EncodeChar_cases c).resolve_right fun hc => hc.1 (toNat_lt_of_isDigit h.1)
    rw [encode_cons, hc.2, ih h.2, List.map_cons, List.singleton_append]

private theorem Text.isDigit_of_mem_encode {ds : List Char} (h : ∀ c ∈ ds, c.isDigit) :
    ∀ b ∈ encode ds, Byte.isDigit b := by
  intro b hb
  obtain ⟨c, hc, hb⟩ := List.mem_flatMap.1 hb
  exact (agrees_isDigit c b hb).trans (h c hc)

private theorem Byte.digitValue_ofNat {c : Char} (h : c.isDigit) :
    digitValue (UInt8.ofNat c.toNat) = c.toNat - '0'.toNat := by
  have hc := Text.toNat_lt_of_isDigit h
  rw [digitValue, UInt8.toNat_ofNat', Nat.mod_eq_of_lt (by omega)]
  rfl

private theorem Numeral.digitsValue_encode {ds : List Char} (h : ∀ c ∈ ds, c.isDigit) :
    digitsValue (Text.encode ds) = Nat.ofDigitChars 10 ds 0 := by
  rw [Text.encode_digits h, digitsValue, List.foldl_map, Nat.ofDigitChars_eq_foldl]
  exact List.foldl_ext _ _ _ fun n c hc => by rw [Byte.digitValue_ofNat (h c hc)]

namespace Binary64

variable (m : Nat)

/-! ### Places -/

/-- The six digits after the point. -/
def places : List Char :=
  List.leftpad 6 '0' (Nat.toDigits 10 (m % Nat.pow 10 6))

/-- The digits after the point without the zeros at the end. -/
def shownPlaces : List Char :=
  (places m).rdropWhile (· == '0')

theorem isDigit_of_mem_places {c : Char} (h : c ∈ places m) : c.isDigit := by
  rw [places, List.leftpad, List.mem_append] at h
  rcases h with h | h
  · rw [List.eq_of_mem_replicate h]
    rfl
  · exact isDigit_of_mem_toDigits h

theorem isDigit_of_mem_shownPlaces {c : Char} (h : c ∈ shownPlaces m) : c.isDigit :=
  isDigit_of_mem_places m ((List.rdropWhile_prefix _ _).mem h)

theorem length_places : (places m).length = 6 := by
  have h := (Nat.length_toDigits_le_iff (b := 10) (n := m % Nat.pow 10 6) (k := 6) (by decide) (by decide)).2
    (Nat.mod_lt m (by decide))
  rw [places, List.length_leftpad]
  exact Nat.max_eq_left h

/-- The six places put after the digits of a number. -/
private theorem ofDigitChars_places (n : Nat) :
    Nat.ofDigitChars 10 (places m) n = n * Nat.pow 10 6 + m % Nat.pow 10 6 := by
  rw [Nat.ofDigitChars_eq_ofDigitChars_zero, length_places, Nat.mul_comm, places, List.leftpad, Nat.ofDigitChars_append,
    Nat.ofDigitChars_replicate_zero, Nat.mul_zero, Nat.ofDigitChars_ten_toDigits, Nat.pow_eq]

theorem trimFraction_sixPlaces :
    trimFraction (sixPlaces m) =
      if shownPlaces m = [] then Nat.toDigits 10 (m / Nat.pow 10 6)
      else Nat.toDigits 10 (m / Nat.pow 10 6) ++ '.' :: shownPlaces m :=
  trimFraction_point (notMem_toDigits (by decide) _) fun h => absurd (isDigit_of_mem_places m h) (by decide)

/-- The six places are those that are shown, and zeros. -/
private theorem places_eq : ∃ k, places m = shownPlaces m ++ List.replicate k '0' :=
  exists_rdropWhile_append_replicate '0' (places m)

theorem getLast?_shownPlaces : (shownPlaces m).getLast? ≠ some '0' := by
  by_cases h : shownPlaces m = []
  · simp [h]
  · obtain ⟨l, c, hl, hc, -⟩ := exists_rdropWhile_eq_concat h
    rw [shownPlaces, hl, List.getLast?_concat, ne_eq, Option.some.injEq]
    exact hc

theorem shownPlaces_eq_nil_iff : shownPlaces m = [] ↔ m % Nat.pow 10 6 = 0 := by
  constructor
  · intro h
    obtain ⟨k, hk⟩ := places_eq m
    have hv := ofDigitChars_places m 0
    rwa [hk, h, List.nil_append, Nat.ofDigitChars_replicate_zero, Nat.mul_zero, Nat.zero_mul, Nat.zero_add,
      eq_comm] at hv
  · intro h
    rw [shownPlaces, places, h]
    rfl

/-! ### The numeral -/

/-- The numeral in the decimal text of a number of millionths. -/
def numeralOf : Numeral :=
  ⟨Text.encode (Nat.toDigits 10 (m / Nat.pow 10 6)), Text.encode (shownPlaces m)⟩

theorem spelled_numeralOf : (numeralOf m).Spelled (Text.encode (trimFraction (sixPlaces m))) := by
  have hw : ∀ b ∈ Text.encode (Nat.toDigits 10 (m / Nat.pow 10 6)), Byte.isDigit b :=
    Text.isDigit_of_mem_encode fun _ => isDigit_of_mem_toDigits
  have hf := Text.isDigit_of_mem_encode fun _ => isDigit_of_mem_shownPlaces m
  have hne {ds : List Char} (h : ds ≠ []) : Text.encode ds ≠ [] := fun e => h (Text.encode_inj.1 e)
  rw [trimFraction_sixPlaces, numeralOf]
  split
  · next h =>
    rw [h, Text.encode_nil]
    exact .whole (hne Nat.toDigits_ne_nil) hw
  · next h =>
    rw [Text.encode_append]
    exact .fraction (hne Nat.toDigits_ne_nil) hw (hne h) hf

theorem numerator_numeralOf : (numeralOf m).numerator * Nat.pow 10 6 = m * (numeralOf m).denominator := by
  obtain ⟨k, hk⟩ := places_eq m
  have hl : (shownPlaces m).length + k = 6 := by
    rw [← length_places m, hk, List.length_append, List.length_replicate]
  -- the places that are not shown multiply the numerator
  have hv : Nat.pow 10 k * (numeralOf m).numerator = m := by
    have hd : ∀ c ∈ Nat.toDigits 10 (m / Nat.pow 10 6) ++ shownPlaces m, c.isDigit :=
      List.forall_mem_append.2 ⟨fun _ => isDigit_of_mem_toDigits, fun _ => isDigit_of_mem_shownPlaces m⟩
    rw [Numeral.numerator, numeralOf, ← Text.encode_append, Numeral.digitsValue_encode hd, Nat.pow_eq,
      ← Nat.ofDigitChars_replicate_zero, ← Nat.ofDigitChars_append, List.append_assoc, ← hk, Nat.ofDigitChars_append,
      Nat.ofDigitChars_ten_toDigits, ofDigitChars_places]
    exact Nat.div_add_mod' m _
  have hp : (numeralOf m).denominator = Nat.pow 10 (shownPlaces m).length := by
    rw [Numeral.denominator, numeralOf, Text.encode_digits fun _ => isDigit_of_mem_shownPlaces m, List.length_map]
  have h6 : Nat.pow 10 6 = Nat.pow 10 k * Nat.pow 10 (shownPlaces m).length := by
    rw [← hl, Nat.pow_eq, Nat.pow_add, Nat.mul_comm]
    rfl
  rw [hp, h6, ← Nat.mul_assoc, Nat.mul_comm _ (Nat.pow 10 k), hv]

/-- The decimal text tells the number of millionths. -/
theorem eq_of_trimFraction_eq {m m' : Nat} (h : trimFraction (sixPlaces m) = trimFraction (sixPlaces m')) :
    m = m' := by
  have hs := spelled_numeralOf m
  rw [h] at hs
  have hv := numerator_numeralOf m
  rw [hs.unique (spelled_numeralOf m'), numerator_numeralOf] at hv
  exact (Nat.eq_of_mul_eq_mul_right (numeralOf m').denominator_pos hv).symm

end Binary64

end ScriptLexer
