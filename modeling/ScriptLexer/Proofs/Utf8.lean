import ScriptLexer.Text

/-!
# Valid UTF-8

A list of bytes is `Valid` if it is the UTF-8 of a text.  The key fact: an ASCII byte is never a part of a longer
character, so a valid list of bytes may be cut before and after each of its ASCII bytes (`Valid.split`).
-/

namespace ScriptLexer.Text

def Valid (bs : List UInt8) : Prop :=
  ∃ s, bytes s = bs

theorem valid_bytes (s : String) : Valid (bytes s) :=
  ⟨s, rfl⟩

theorem bytes_inj {s t : String} : bytes s = bytes t ↔ s = t := by
  refine ⟨fun h => ?_, fun h => h ▸ rfl⟩
  rw [← String.toByteArray_inj, ← toByteArray_bytes, h, toByteArray_bytes]

theorem bytes_append (s t : String) : bytes (s ++ t) = bytes s ++ bytes t := by
  simp [bytes]

theorem bytes_ofList (cs : List Char) : bytes (String.ofList cs) = cs.flatMap String.utf8EncodeChar := by
  simp [bytes, List.utf8Encode, List.data_toByteArray]

private theorem valid_iff {bs : List UInt8} : Valid bs ↔ ∃ cs : List Char, bs = cs.flatMap String.utf8EncodeChar := by
  constructor
  · rintro ⟨s, rfl⟩
    refine ⟨s.toList, ?_⟩
    rw [← bytes_ofList, String.ofList_toList]
  · rintro ⟨cs, rfl⟩
    exact ⟨String.ofList cs, bytes_ofList cs⟩

theorem Valid.append {xs ys : List UInt8} (hx : Valid xs) (hy : Valid ys) : Valid (xs ++ ys) := by
  obtain ⟨s, rfl⟩ := hx
  obtain ⟨t, rfl⟩ := hy
  exact ⟨s ++ t, bytes_append s t⟩

private theorem not_ofNat_lt {n : Nat} (h : 0x80 ≤ n) (h' : n < 0x100) : ¬ UInt8.ofNat n < 0x80 := by
  have e : (0x80 : UInt8).toNat = 0x80 := rfl
  rw [UInt8.lt_iff_toNat_lt, UInt8.toNat_ofNat', e]
  omega

/-- An ASCII character is the one byte that is its code, and no byte of any other character is ASCII. -/
theorem utf8EncodeChar_cases (c : Char) :
    (c.toNat < 0x80 ∧ String.utf8EncodeChar c = [UInt8.ofNat c.toNat]) ∨
      (¬ c.toNat < 0x80 ∧ ∀ b ∈ String.utf8EncodeChar c, ¬ b < 0x80) := by
  have e : c.toNat = c.val.toNat := rfl
  rw [e]
  fun_cases String.utf8EncodeChar c with
  | case1 v h => exact Or.inl ⟨Nat.lt_succ_of_le h, rfl⟩
  | case2 v h h' =>
    right
    simp only [List.forall_mem_cons]
    refine ⟨by omega, not_ofNat_lt ?_ ?_, not_ofNat_lt ?_ ?_, by simp⟩ <;> omega
  | case3 v h h' h'' =>
    right
    simp only [List.forall_mem_cons]
    refine ⟨by omega, not_ofNat_lt ?_ ?_, not_ofNat_lt ?_ ?_, not_ofNat_lt ?_ ?_, by simp⟩ <;> omega
  | case4 v h h' h'' =>
    right
    simp only [List.forall_mem_cons]
    refine ⟨by omega, not_ofNat_lt ?_ ?_, not_ofNat_lt ?_ ?_, not_ofNat_lt ?_ ?_, not_ofNat_lt ?_ ?_, by simp⟩ <;> omega

/-- Valid bytes may be cut before and after an ASCII byte. -/
theorem Valid.split {xs ys : List UInt8} {b : UInt8} (h : Valid (xs ++ b :: ys)) (hb : b < 0x80) :
    Valid xs ∧ Valid ys := by
  obtain ⟨cs, e⟩ := valid_iff.1 h
  clear h
  induction cs generalizing xs with
  | nil => simp at e
  | cons c cs ih =>
    rw [List.flatMap_cons] at e
    rcases utf8EncodeChar_cases c with ⟨-, hc⟩ | ⟨-, hc⟩
    · rw [hc, List.singleton_append] at e
      cases xs with
      | nil =>
        rw [List.nil_append, List.cons.injEq] at e
        exact ⟨⟨"", rfl⟩, valid_iff.2 ⟨cs, e.2⟩⟩
      | cons x xs =>
        rw [List.cons_append, List.cons.injEq] at e
        have hv := ih e.2
        refine ⟨?_, hv.2⟩
        rw [e.1, ← List.singleton_append, ← hc]
        exact Valid.append (valid_iff.2 ⟨[c], by simp⟩) hv.1
    · rcases List.append_eq_append_iff.1 e with ⟨zs, hz, e'⟩ | ⟨zs, hz, e'⟩
      · -- the ASCII byte would lie in the character
        cases zs with
        | nil =>
          rw [List.append_nil] at hz
          rw [List.nil_append] at e'
          have hv : Valid [] ∧ Valid ys := ih e'
          exact ⟨valid_iff.2 ⟨[c], by simp [hz]⟩, hv.2⟩
        | cons z zs =>
          rw [List.cons_append, List.cons.injEq] at e'
          exact absurd hb (hc b (by simp [hz, e'.1]))
      · have hv := ih e'.symm
        refine ⟨?_, hv.2⟩
        rw [hz]
        exact Valid.append (valid_iff.2 ⟨[c], by simp⟩) hv.1

theorem valid_of_ascii {bs : List UInt8} (h : ∀ b ∈ bs, b < 0x80) : Valid bs := by
  induction bs with
  | nil => exact ⟨"", rfl⟩
  | cons b bs ih =>
    rw [List.forall_mem_cons] at h
    have hb : Valid [b] := by
      have e : (Char.ofUInt8 b).val.toNat = b.toNat := UInt8.toNat_toUInt32 b
      have hb' : b.toNat < 0x80 := UInt8.lt_iff_toNat_lt.1 h.1
      refine valid_iff.2 ⟨[Char.ofUInt8 b], ?_⟩
      rw [List.flatMap_singleton, String.utf8EncodeChar, e, if_pos (by omega), UInt8.ofNat_toNat]
    exact Valid.append hb (ih h.2)

end ScriptLexer.Text
