import Mathlib.Data.List.Infix
import ScriptLexer.Proofs.ExactValue
import ScriptLexer.Proofs.Rereading

/-!
# The decimal text of a number, digit by digit

The text of a finite number is a sign, the whole part of its millionths and, unless they are all zeros, a point and the
six places after it without the zeros at the end (`Binary64.toList_render`).  The key facts: a number of millionths with
six places is trimmed just as well by searching in its text (`Binary64.trimBySearch_eq`), and the text of a number is
the exact value in millionths, rounded half to even, which it determines (`Literal.render_number`).
-/

namespace ScriptLexer

namespace Binary64

/-! ### Trimming by search -/

/-- The text without a point at its end. -/
def dropPoint (text : List Char) : List Char :=
  if text.getLast? = some '.' then text.dropLast else text

/-- A point and six zeros. -/
def zeroFraction : List Char :=
  '.' :: List.replicate 6 '0'

/-- The index of the last character that is not a zero. -/
def lastNonzero? (text : List Char) : Option Nat :=
  (text.reverse.findIdx? (· != '0')).map (text.length - 1 - ·)

/-- Cuts a text before the first point that six zeros follow.  A text without such a point is cut after the last
character that is not a zero, if that one is behind the first point, and loses a point at its end. -/
def trimBySearch (text : List Char) : List Char :=
  match text.tails.findIdx? (List.isPrefixOf zeroFraction ·) with
  | some i => text.take i
  | none =>
    match text.findIdx? (· == '.') with
    | none => text
    | some point =>
      dropPoint <|
        match lastNonzero? text with
        | some last => if point < last then text.take (last + 1) else text
        | none => text

private theorem dropPoint_concat {c : Char} (h : c ≠ '.') (text : List Char) :
    dropPoint (text ++ [c]) = text ++ [c] := by
  rw [dropPoint, List.getLast?_concat, if_neg]
  rwa [Option.some.injEq]

section Search

variable {w f : List Char}

private theorem findIdx?_tails_of_notMem (h : '.' ∉ f) :
    f.tails.findIdx? (List.isPrefixOf zeroFraction ·) = none := by
  rw [List.findIdx?_eq_none_iff]
  intro t ht
  rw [Bool.eq_false_iff]
  intro hp
  have hpoint : '.' ∈ t := (List.isPrefixOf_iff_prefix.1 hp).subset List.mem_cons_self
  exact h (((List.mem_tails t f).1 ht).subset hpoint)

private theorem findIdx?_tails_append (hw : '.' ∉ w) (hf : '.' ∉ f) :
    (w ++ '.' :: f).tails.findIdx? (List.isPrefixOf zeroFraction ·) =
      if List.replicate 6 '0' <+: f then some w.length else none := by
  induction w with
  | nil =>
    rw [List.nil_append, List.tails_cons, List.findIdx?_cons, findIdx?_tails_of_notMem hf, zeroFraction,
      List.isPrefixOf_cons_cons]
    simp
  | cons c w ih =>
    rw [List.mem_cons, not_or] at hw
    have hc : ('.' == c) = false := by simpa using hw.1
    rw [List.cons_append, List.tails_cons, List.findIdx?_cons, ih hw.2, zeroFraction, List.isPrefixOf_cons_cons, hc,
      Bool.false_and, if_neg Bool.false_ne_true]
    split <;> simp

private theorem findIdx?_point (hw : '.' ∉ w) : (w ++ '.' :: f).findIdx? (· == '.') = some w.length := by
  have hn : w.findIdx? (· == '.') = none := by
    rw [List.findIdx?_eq_none_iff]
    rintro c hc
    rw [beq_eq_false_iff_ne]
    rintro rfl
    exact hw hc
  rw [List.findIdx?_append, hn, List.findIdx?_cons]
  simp

private theorem lastNonzero?_append {c : Char} (h : c ≠ '0') (l : List Char) (k : Nat) :
    lastNonzero? (l ++ c :: List.replicate k '0') = some l.length := by
  have hz : (List.replicate k '0').findIdx? (· != '0') = none := by simp
  rw [lastNonzero?, List.reverse_append, List.reverse_cons, List.reverse_replicate, List.append_assoc,
    List.findIdx?_append, hz, List.singleton_append, List.findIdx?_cons]
  simp [h]

theorem trimBySearch_eq (hw : '.' ∉ w) (hf : '.' ∉ f) (hl : f.length = 6) :
    trimBySearch (w ++ '.' :: f) = trimFraction (w ++ '.' :: f) := by
  rw [trimFraction_point hw hf, trimBySearch, findIdx?_tails_append hw hf]
  obtain ⟨k, hk⟩ := exists_rdropWhile_append_replicate '0' f
  by_cases hz : List.replicate 6 '0' <+: f
  · have e := hz.eq_of_length (by rw [List.length_replicate, hl])
    rw [if_pos hz, if_pos (by rw [← e]; decide)]
    exact List.take_left
  · have hne : f.rdropWhile (· == '0') ≠ [] := by
      intro he
      rw [he, List.nil_append] at hk
      rw [hk, List.length_replicate] at hl
      exact hz (by rw [hk, hl])
    rw [if_neg hz, if_neg hne, findIdx?_point hw]
    -- the last digit that is kept is behind the point, so no point is left at the end
    obtain ⟨l, c, hc, hc0, hcf⟩ := exists_rdropWhile_eq_concat hne
    have hcp : c ≠ '.' := fun h => hf (h ▸ hcf)
    rw [hc] at hk
    have ht : w ++ '.' :: f = (w ++ '.' :: l) ++ c :: List.replicate k '0' := by rw [hk]; simp
    rw [ht, lastNonzero?_append hc0]
    have htake : ((w ++ '.' :: l) ++ c :: List.replicate k '0').take ((w ++ '.' :: l).length + 1) =
        (w ++ '.' :: l) ++ [c] := by
      rw [List.take_length_add_append]
      rfl
    have hlt : w.length < (w ++ '.' :: l).length := by simp
    dsimp only
    rw [if_pos hlt, htake, dropPoint_concat hcp, hc]
    simp

end Search

/-! ### The text of a number -/

/-- The minus sign of a number with the sign bit. -/
def signText (x : Binary64) : List Char :=
  if x.isNegative then ['-'] else []

/-- The point and the places that are shown, or nothing if there are none. -/
def fractionText (m : Nat) : List Char :=
  if m % 10 ^ 6 = 0 then [] else '.' :: (List.leftpad 6 '0' (Nat.toDigits 10 (m % 10 ^ 6))).rdropWhile (· == '0')

private theorem fractionText_eq (m : Nat) :
    fractionText m = if shownPlaces m = [] then [] else '.' :: shownPlaces m := by
  simp only [shownPlaces_eq_nil_iff]
  rfl

private theorem trimFraction_eq_append (m : Nat) :
    trimFraction (sixPlaces m) = Nat.toDigits 10 (m / 10 ^ 6) ++ fractionText m := by
  rw [trimFraction_sixPlaces, fractionText_eq]
  split
  · rw [List.append_nil]
    rfl
  · rfl

private theorem point_notMem_signText (x : Binary64) : '.' ∉ signText x := by
  unfold signText
  split <;> decide

private theorem point_notMem_places (m : Nat) : '.' ∉ places m :=
  fun h => absurd (isDigit_of_mem_places m h) (by decide)

/-- The sign and the digits of the whole part. -/
def wholeText (x : Binary64) : List Char :=
  signText x ++ Nat.toDigits 10 (x.millionths / 10 ^ 6)

private theorem point_notMem_wholeText (x : Binary64) : '.' ∉ wholeText x := by
  rw [wholeText, List.mem_append, not_or]
  exact ⟨point_notMem_signText x, notMem_toDigits (by decide) _⟩

theorem toList_render {x : Binary64} (hf : x.isFinite) :
    x.render.toList = wholeText x ++ fractionText x.millionths := by
  unfold render
  rw [isNaN_eq_false hf, if_neg Bool.false_ne_true]
  dsimp only
  rw [if_pos hf, String.toList_append, String.toList_ofList, trimFraction_eq_append, wholeText, signText,
    List.append_assoc]
  cases x.isNegative <;> rfl

private theorem trimBySearch_sixPlaces {x : Binary64} (hf : x.isFinite) :
    trimBySearch (signText x ++ sixPlaces x.millionths) = x.render.toList := by
  have hs : signText x ++ sixPlaces x.millionths = wholeText x ++ '.' :: places x.millionths := by
    rw [wholeText, List.append_assoc]
    rfl
  rw [hs, trimBySearch_eq (point_notMem_wholeText x) (point_notMem_places _) (length_places _),
    trimFraction_point (point_notMem_wholeText x) (point_notMem_places _), toList_render hf, fractionText_eq,
    ← shownPlaces]
  split <;> simp

/-- A text of digits and a fraction ends in neither a point nor a zero of the fraction. -/
private theorem getLast?_render {x : Binary64} (hf : x.isFinite) :
    x.render.toList.getLast? ≠ some '.' ∧ ('.' ∈ x.render.toList → x.render.toList.getLast? ≠ some '0') := by
  rw [toList_render hf, fractionText_eq]
  split
  · rw [List.append_nil]
    exact ⟨fun h => point_notMem_wholeText x (List.mem_of_getLast? h), fun h => absurd h (point_notMem_wholeText x)⟩
  · next hne =>
    have hlast : (wholeText x ++ '.' :: shownPlaces x.millionths).getLast? = (shownPlaces x.millionths).getLast? := by
      rw [List.getLast?_append_of_ne_nil _ (List.cons_ne_nil _ _), List.getLast?_cons_of_ne_nil hne]
    rw [hlast]
    refine ⟨fun h => ?_, fun _ => getLast?_shownPlaces _⟩
    exact absurd (isDigit_of_mem_shownPlaces _ (List.mem_of_getLast? h)) (by decide)

private theorem takeWhile_render {x : Binary64} (hf : x.isFinite) :
    x.render.toList.takeWhile (· != '.') = wholeText x := by
  have hw : ∀ c ∈ wholeText x, (c != '.') = true := by
    intro c hc
    rw [bne_iff_ne]
    rintro rfl
    exact point_notMem_wholeText x hc
  rw [toList_render hf, List.takeWhile_append_of_pos hw, fractionText]
  split <;> simp

/-- Of finite numbers with the same sign bit, those with the same millionths have the same text, and no others. -/
private theorem render_eq_iff {x y : Binary64} (hx : x.isFinite) (hy : y.isFinite) (hs : y.isNegative = x.isNegative) :
    y.render = x.render ↔ y.millionths = x.millionths := by
  have hsign : signText y = signText x := by rw [signText, signText, hs]
  rw [← String.toList_inj, toList_render hx, toList_render hy, wholeText, wholeText, hsign, List.append_assoc,
    List.append_assoc, List.append_cancel_left_eq, ← trimFraction_eq_append, ← trimFraction_eq_append]
  constructor
  · exact eq_of_trimFraction_eq
  · intro h
    rw [h]

end Binary64

/-- The text of a finite number is exact: its millionths are the only natural number that the exact absolute value is
rounded to, half to even, and the text is the sign bit, their whole part without zeros in front of it and their places
without zeros at the end, with a point only if a place is left.  So is the text with all six places, trimmed by search.
Zeros of the whole part are kept, the text ends in no point and in no zero of a fraction, and numbers with the same sign
bit have the same text if and only if they have the same millionths. -/
theorem Literal.render_number {x : Binary64} (hf : x.isFinite) :
    (∀ m : ℕ, IsHalfEven (x.absValue * 10 ^ 6) m ↔ x.millionths = m) ∧
    (number x).render.toList =
      (if x.isNegative then ['-'] else []) ++ Nat.toDigits 10 (x.millionths / 10 ^ 6) ++
        (if x.millionths % 10 ^ 6 = 0 then []
          else '.' :: (List.leftpad 6 '0' (Nat.toDigits 10 (x.millionths % 10 ^ 6))).rdropWhile (· == '0')) ∧
    ((Nat.toDigits 10 (x.millionths / 10 ^ 6)).head? = some '0' → x.millionths / 10 ^ 6 = 0) ∧
    (number x).render.toList =
      Binary64.trimBySearch ((if x.isNegative then ['-'] else []) ++ Nat.toDigits 10 (x.millionths / 10 ^ 6) ++
        '.' :: List.leftpad 6 '0' (Nat.toDigits 10 (x.millionths % 10 ^ 6))) ∧
    (number x).render.toList.takeWhile (· != '.') =
      (if x.isNegative then ['-'] else []) ++ Nat.toDigits 10 (x.millionths / 10 ^ 6) ∧
    (number x).render.toList.getLast? ≠ some '.' ∧
    ('.' ∈ (number x).render.toList → (number x).render.toList.getLast? ≠ some '0') ∧
    ∀ y : Binary64, y.isFinite → y.isNegative = x.isNegative →
      ((number y).render = (number x).render ↔ y.millionths = x.millionths) := by
  have hlast := Binary64.getLast?_render hf
  refine ⟨fun m => Binary64.isHalfEven_iff_millionths_eq, Binary64.toList_render hf, eq_zero_of_head?_toDigits, ?_,
    Binary64.takeWhile_render hf, hlast.1, hlast.2, ?_⟩
  · rw [List.append_assoc]
    exact (Binary64.trimBySearch_sixPlaces hf).symm
  · intro y hy hs
    exact Binary64.render_eq_iff hf hy hs

/-- Half a millionth is rounded to the even one, and the sign is kept. -/
theorem Literal.render_number_tie :
    (⟨0xBF80000000000000⟩ : Binary64).isFinite ∧
    IsHalfEven ((⟨0xBF80000000000000⟩ : Binary64).absValue * 10 ^ 6) 7812 ∧
    (number ⟨0xBF80000000000000⟩).render.toList = ['-', '0', '.', '0', '0', '7', '8', '1', '2'] := by
  have hf : (⟨0xBF80000000000000⟩ : Binary64).isFinite := by decide
  have hm : (⟨0xBF80000000000000⟩ : Binary64).millionths = 7812 := by decide +kernel
  obtain ⟨hround, htext, -⟩ := render_number hf
  refine ⟨hf, (hround 7812).2 hm, ?_⟩
  rw [htext, hm]
  decide +kernel

/-- Rounding may carry into the whole part, of which no zero is dropped. -/
example : (Literal.number ⟨0x4023FFFFF29406B3⟩).render = "10" := by
  decide +kernel

end ScriptLexer
