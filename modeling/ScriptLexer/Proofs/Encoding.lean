import ScriptLexer.Proofs.Reading

/-!
# Characters and their bytes

`Text.encode` lists the bytes of some characters.  A class of bytes agrees with a class of characters if it says of each
byte of a character what the other says of the character (`Text.Agrees`).  Then a run of characters has as its bytes a
run of bytes (`Text.Agrees.takeWhile_encode`).  The classes that the scanner knows agree with classes of ASCII
characters.
-/

namespace ScriptLexer.Text

/-- The UTF-8 bytes of some characters. -/
def encode (cs : List Char) : List UInt8 :=
  cs.flatMap String.utf8EncodeChar

@[simp] theorem encode_nil : encode [] = [] := rfl

theorem encode_cons (c : Char) (cs : List Char) : encode (c :: cs) = String.utf8EncodeChar c ++ encode cs := rfl

@[simp] theorem encode_append (cs ds : List Char) : encode (cs ++ ds) = encode cs ++ encode ds :=
  List.flatMap_append

theorem length_encode_cons (c : Char) (cs : List Char) :
    (encode (c :: cs)).length = (String.utf8EncodeChar c).length + (encode cs).length :=
  List.length_append

theorem bytes_ofList_eq_encode (cs : List Char) : bytes (String.ofList cs) = encode cs :=
  bytes_ofList cs

theorem ofBytes?_encode (cs : List Char) : ofBytes? (encode cs) = some (String.ofList cs) :=
  ofBytes?_eq_some_iff.2 (bytes_ofList_eq_encode cs)

theorem bytes_eq_encode (s : String) : bytes s = encode s.toList := by
  rw [← bytes_ofList_eq_encode, String.ofList_toList]

theorem encode_inj {cs ds : List Char} : encode cs = encode ds ↔ cs = ds := by
  rw [← bytes_ofList_eq_encode, ← bytes_ofList_eq_encode, bytes_inj, String.ofList_inj]

theorem exists_mem_utf8EncodeChar (c : Char) : ∃ b, b ∈ String.utf8EncodeChar c :=
  List.exists_mem_of_ne_nil _ (by simp)

/-- The bytes of some characters begin with a byte of the first one. -/
theorem exists_encode_eq_cons (c : Char) (cs : List Char) :
    ∃ b bs, b ∈ String.utf8EncodeChar c ∧ encode (c :: cs) = b :: bs := by
  obtain ⟨b, bs, e⟩ := List.exists_cons_of_ne_nil (l := String.utf8EncodeChar c) (by simp)
  exact ⟨b, bs ++ encode cs, by simp [e], by rw [encode_cons, e, List.cons_append]⟩

/-! ### Classes of bytes and of characters -/

/-- The class `p` contains the bytes of the characters in the class `q`, and no byte of any other character. -/
def Agrees (p : UInt8 → Bool) (q : Char → Bool) : Prop :=
  ∀ c, ∀ b ∈ String.utf8EncodeChar c, p b = q c

namespace Agrees

variable {p p' : UInt8 → Bool} {q q' : Char → Bool}

theorem not (h : Agrees p q) : Agrees (fun b => !p b) (fun c => !q c) := by
  intro c b hb
  dsimp only
  rw [h c b hb]

theorem or (h : Agrees p q) (h' : Agrees p' q') : Agrees (fun b => p b || p' b) (fun c => q c || q' c) := by
  intro c b hb
  dsimp only
  rw [h c b hb, h' c b hb]

theorem takeWhile_encode (h : Agrees p q) (cs : List Char) : (encode cs).takeWhile p = encode (cs.takeWhile q) := by
  induction cs with
  | nil => rfl
  | cons c cs ih =>
    cases hc : q c with
    | true =>
      rw [encode_cons, List.takeWhile_append_of_pos fun b hb => (h c b hb).trans hc, ih, List.takeWhile_cons_of_pos hc,
        encode_cons]
    | false =>
      obtain ⟨b, bs, hb, e⟩ := exists_encode_eq_cons c cs
      have hp : p b = false := (h c b hb).trans hc
      rw [e, List.takeWhile_cons_of_neg (by simp [hp]), List.takeWhile_cons_of_neg (by simp [hc]), encode_nil]

theorem dropWhile_encode (h : Agrees p q) (cs : List Char) : (encode cs).dropWhile p = encode (cs.dropWhile q) := by
  have e : (encode cs).takeWhile p ++ (encode cs).dropWhile p = encode (cs.takeWhile q) ++ encode (cs.dropWhile q) := by
    rw [List.takeWhile_append_dropWhile, ← encode_append, List.takeWhile_append_dropWhile]
  rw [h.takeWhile_encode] at e
  exact List.append_cancel_left e

end Agrees

/-- A class of ASCII bytes agrees with a class of ASCII characters if they contain the same codes. -/
theorem agrees_of_ascii {p : UInt8 → Bool} {q : Char → Bool} (h : ∀ n < 0x80, p (UInt8.ofNat n) = q (Char.ofNat n))
    (hp : ∀ b, p b → b < 0x80) (hq : ∀ c, q c → c.toNat < 0x80) : Agrees p q := by
  intro c b hb
  rcases utf8EncodeChar_cases c with ⟨hc, e⟩ | ⟨hc, hbs⟩
  · rw [e, List.mem_singleton] at hb
    rw [hb, h _ hc, Char.ofNat_toNat]
  · have hpb : p b = false := by
      rw [Bool.eq_false_iff]
      exact fun hpb => hbs b hb (hp b hpb)
    have hqc : q c = false := by
      rw [Bool.eq_false_iff]
      exact fun hqc => hc (hq c hqc)
    rw [hpb, hqc]

/-- A byte that is all of a character is no byte of another. -/
theorem agrees_beq (b : UInt8) (c : Char) (h : b < 0x80 ∧ String.utf8EncodeChar c = [b]) :
    Agrees (· == b) (· == c) := by
  obtain ⟨hb, e⟩ := h
  intro d x hx
  rw [Bool.eq_iff_iff, beq_iff_eq, beq_iff_eq]
  constructor
  · rintro rfl
    rcases utf8EncodeChar_cases d with ⟨-, hd⟩ | ⟨-, hd⟩
    · rw [hd, List.mem_singleton] at hx
      rw [← hx, ← e] at hd
      have hdc : encode [d] = encode [c] := by rw [encode_cons, encode_cons, hd]
      simpa using encode_inj.1 hdc
    · exact absurd hb (hd x hx)
  · rintro rfl
    rwa [e, List.mem_singleton] at hx

theorem Agrees.bne {b : UInt8} {c : Char} (h : Agrees (· == b) (· == c)) : Agrees (· != b) (· != c) :=
  h.not

theorem Agrees.eq_iff {b : UInt8} {c : Char} (h : Agrees (· == b) (· == c)) {d : Char} {x : UInt8}
    (hx : x ∈ String.utf8EncodeChar d) : x = b ↔ d = c := by
  have e : (x == b) = (d == c) := h d x hx
  rwa [Bool.eq_iff_iff, beq_iff_eq, beq_iff_eq] at e

private theorem toNat_lt_of_le {c d : Char} (h : c.val ≤ d.val) (hd : d.toNat < 0x80) : c.toNat < 0x80 :=
  Nat.lt_of_le_of_lt (UInt32.le_iff_toNat_le.1 h) hd

theorem toNat_lt_of_isDigit {c : Char} (h : c.isDigit) : c.toNat < 0x80 := by
  have h' : decide (c.val ≤ '9'.val) = true := (Bool.and_eq_true_iff.1 h).2
  exact toNat_lt_of_le (of_decide_eq_true h') (by decide)

theorem agrees_isDigit : Agrees Byte.isDigit Char.isDigit :=
  agrees_of_ascii (by decide) (fun _ => Piece.isDigit_lt) fun _ => toNat_lt_of_isDigit

theorem toNat_lt_of_isAlpha {c : Char} (h : c.isAlpha) : c.toNat < 0x80 := by
  rcases Bool.or_eq_true_iff.1 h with h | h
  · have h' : 'A'.val ≤ c.val ∧ c.val ≤ 'Z'.val := of_decide_eq_true h
    exact toNat_lt_of_le h'.2 (by decide)
  · have h' : decide (c.val ≤ 'z'.val) = true := (Bool.and_eq_true_iff.1 h).2
    exact toNat_lt_of_le (of_decide_eq_true h') (by decide)

end ScriptLexer.Text
