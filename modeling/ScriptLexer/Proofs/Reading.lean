import ScriptLexer.Proofs.FirstPiece
import ScriptLexer.Proofs.Utf8

/-!
# What a piece stands for

The pieces of four shapes are lexemes and stand for tokens, three shapes are faults and stand for errors, and the
others stand for nothing.  `Piece.Reads` says which token a lexeme is, its line left open.  The key fact: every lexeme
of a script stands for a token (`Piece.exists_reads`), since its bytes and those between the quotes of a string are
valid UTF-8.
-/

namespace ScriptLexer

namespace Piece

def Shape.isLexeme : Shape → Bool
  | .mark _ | .word | .number | .string => true
  | _ => false

def Shape.isFault : Shape → Bool
  | .stray _ | .openString | .openComment => true
  | _ => false

/-- The lexeme, kind and literal of the token that a piece stands for.  A word is a keyword if all of it is the
spelling of one, otherwise an identifier. -/
inductive Reads : Piece → Token → Prop where
  | mark (m : Mark) (line : Nat) : Reads ⟨.mark m, m.bytes⟩ ⟨.mark m, m.spelling, none, line⟩
  | keyword (k : Keyword) (line : Nat) : Reads ⟨.word, Text.bytes k.spelling⟩ ⟨.keyword k, k.spelling, none, line⟩
  | identifier {w : String} (line : Nat) : (∀ k : Keyword, w ≠ k.spelling) →
      Reads ⟨.word, Text.bytes w⟩ ⟨.identifier, w, none, line⟩
  | number {w : String} {n : Numeral} (line : Nat) : n.Spelled (Text.bytes w) →
      Reads ⟨.number, Text.bytes w⟩ ⟨.number, w, some (.number n.toBinary64), line⟩
  | string (text : String) (line : Nat) :
      Reads ⟨.string, Text.bytes ("\"" ++ text ++ "\"")⟩ ⟨.string, "\"" ++ text ++ "\"", some (.text text), line⟩

/-- The error that a piece stands for, its line left open. -/
inductive Faults : Piece → LexicalError → Prop where
  | stray (b : UInt8) (line : Nat) : Faults ⟨.stray b, [b]⟩ (.strayByte line b)
  | openString (bs : List UInt8) (line : Nat) : Faults ⟨.openString, bs⟩ (.openString line)
  | openComment (bs : List UInt8) (line : Nat) : Faults ⟨.openComment, bs⟩ (.openComment line)

theorem Reads.bytes_lexeme {p : Piece} {t : Token} (h : p.Reads t) : Text.bytes t.lexeme = p.bytes := by
  cases h <;> rfl

/-! ### Keywords -/

private theorem ofWord_spelling (k : Keyword) : Token.Kind.ofWord k.spelling = .keyword k := by
  cases k <;> decide

private theorem ofWord_of_ne {w : String} (h : ∀ k : Keyword, w ≠ k.spelling) : Token.Kind.ofWord w = .identifier := by
  have hf : Keyword.all.find? (·.spelling == w) = none := by
    rw [List.find?_eq_none]
    intro k _
    simpa using (h k).symm
  rw [Token.Kind.ofWord, Keyword.ofSpelling, hf]

/-! ### Texts of lexemes -/

theorem bytes_quoted (text : String) :
    Text.bytes ("\"" ++ text ++ "\"") = Byte.quote :: (Text.bytes text ++ [Byte.quote]) := by
  have hq : Text.bytes "\"" = [Byte.quote] := by decide
  rw [Text.bytes_append, Text.bytes_append, hq]
  rfl

theorem isBlank_lt {b : UInt8} (h : Byte.isBlank b) : b < 0x80 := by
  rcases isBlank_cases h with rfl | rfl | rfl | rfl <;> decide

theorem isDigit_lt {b : UInt8} (h : Byte.isDigit b) : b < 0x80 := by
  simp only [Byte.isDigit, Bool.and_eq_true, decide_eq_true_eq, UInt8.le_iff_toNat_le, UInt8.toNat_ofNat] at h
  exact UInt8.lt_iff_toNat_lt.2 (show b.toNat < 0x80 by omega)

private theorem isWordStart_lt {b : UInt8} (h : Byte.isWordStart b) : b < 0x80 := by
  simp only [Byte.isWordStart, Bool.and_eq_true, Bool.or_eq_true, decide_eq_true_eq, beq_iff_eq,
    UInt8.le_iff_toNat_le, UInt8.toNat_ofNat] at h
  rcases h with (h | h) | rfl
  · exact UInt8.lt_iff_toNat_lt.2 (show b.toNat < 0x80 by omega)
  · exact UInt8.lt_iff_toNat_lt.2 (show b.toNat < 0x80 by omega)
  · decide

theorem isWordByte_lt {b : UInt8} (h : Byte.isWordByte b) : b < 0x80 := by
  rw [Byte.isWordByte, Bool.or_eq_true] at h
  exact h.elim isWordStart_lt isDigit_lt

private theorem spelled_lt {n : Numeral} {p : List UInt8} (h : n.Spelled p) : ∀ b ∈ p, b < 0x80 := by
  intro b hb
  rcases h.isDigit_or_eq_dot b hb with hd | rfl
  · exact isDigit_lt hd
  · decide

/-- A lexeme is ASCII, or it is a string. -/
private theorem Shape.Admits.ascii_or_quoted {s : Shape} {p rest : List UInt8} (h : s.Admits p rest) (hl : s.isLexeme) :
    (∀ b ∈ p, b < 0x80) ∨ ∃ body, p = Byte.quote :: (body ++ [Byte.quote]) := by
  rcases h with h | ⟨b, rfl, -, -⟩
  · cases h with
    | mark m => exact Or.inl m.lt_of_mem_bytes
    | word hb hw => exact Or.inl fun c hc => isWordByte_lt (isWordByte_of_mem hb hw c hc)
    | number hn => exact Or.inl (spelled_lt hn)
    | @string body => exact Or.inr ⟨body, rfl⟩
    | _ => cases hl
  · cases hl

/-- A script may be cut before and after each of its lexemes. -/
theorem Shape.Admits.valid_around {s : Shape} {p before after : List UInt8} (h : s.Admits p after) (hl : s.isLexeme)
    (hv : Text.Valid (before ++ p ++ after)) : Text.Valid before ∧ Text.Valid after := by
  have hends : ∃ q b q' b', p = b :: q ∧ p = q' ++ [b'] ∧ b < 0x80 ∧ b' < 0x80 := by
    rcases h.ascii_or_quoted hl with hp | ⟨body, rfl⟩
    · obtain ⟨b, q, e⟩ := List.exists_cons_of_ne_nil h.ne_nil
      have e' := (List.dropLast_concat_getLast h.ne_nil).symm
      exact ⟨q, b, _, _, e, e', hp b (by simp [e]), hp _ (List.getLast_mem h.ne_nil)⟩
    · exact ⟨_, _, Byte.quote :: body, Byte.quote, rfl, rfl, by decide, by decide⟩
  obtain ⟨q, b, q', b', e, e', hb, hb'⟩ := hends
  constructor
  · rw [e, List.append_assoc] at hv
    exact (hv.split hb).1
  · rw [e', ← List.append_assoc, List.append_assoc, List.singleton_append] at hv
    exact (hv.split hb').2

/-- A lexeme of a script stands for a token. -/
theorem exists_reads {p : Piece} {before after : List UInt8} (h : p.shape.Admits p.bytes after)
    (hl : p.shape.isLexeme) (hv : Text.Valid (before ++ p.bytes ++ after)) (line : Nat) :
    ∃ t, p.Reads t ∧ t.line = line := by
  obtain ⟨s, bs⟩ := p
  rcases h with h | ⟨b, rfl, -, -⟩
  · cases h with
    | mark m => exact ⟨_, .mark m line, rfl⟩
    | @word b w _ hb hw =>
      have hlt : ∀ c ∈ b :: w, c < 0x80 := fun c hc => isWordByte_lt (isWordByte_of_mem hb hw c hc)
      obtain ⟨t, ht⟩ := Text.valid_of_ascii hlt
      rw [← ht]
      by_cases hk : ∃ k : Keyword, t = k.spelling
      · obtain ⟨k, rfl⟩ := hk
        exact ⟨_, .keyword k line, rfl⟩
      · exact ⟨_, .identifier line (fun k e => hk ⟨k, e⟩), rfl⟩
    | number hn =>
      obtain ⟨t, rfl⟩ := Text.valid_of_ascii (spelled_lt hn)
      exact ⟨_, .number line hn, rfl⟩
    | @string body _ hq =>
      -- the quotes are ASCII, so the text between them is valid
      have e : before ++ Byte.quote :: (body ++ [Byte.quote]) ++ after =
          before ++ Byte.quote :: (body ++ Byte.quote :: after) := by simp
      dsimp only at hv ⊢
      rw [e] at hv
      obtain ⟨t, rfl⟩ := ((hv.split (by decide)).2.split (by decide)).1
      rw [← bytes_quoted]
      exact ⟨_, .string t line, rfl⟩
    | _ => cases hl
  · cases hl

/-! ### Tokens and errors of pieces -/

theorem Reads.token?_eq {p : Piece} {t : Token} (h : p.Reads t) : p.token? t.line = some t := by
  cases h with
  | mark m line =>
    have ht : Text.ofBytes? m.bytes = some m.spelling := Text.ofBytes?_eq_some_iff.2 rfl
    simp [token?, ht]
  | keyword k line =>
    have ht : Text.ofBytes? (Text.bytes k.spelling) = some k.spelling := Text.ofBytes?_eq_some_iff.2 rfl
    simp [token?, ht, ofWord_spelling]
  | @identifier w line hk =>
    have ht : Text.ofBytes? (Text.bytes w) = some w := Text.ofBytes?_eq_some_iff.2 rfl
    simp [token?, ht, ofWord_of_ne hk]
  | @number w n line hn =>
    have ht : Text.ofBytes? (Text.bytes w) = some w := Text.ofBytes?_eq_some_iff.2 rfl
    simp [token?, ht, Numeral.ofBytes?_eq_some_iff.2 hn]
  | string text line =>
    have ht : Text.ofBytes? (Byte.quote :: (Text.bytes text ++ [Byte.quote])) = some ("\"" ++ text ++ "\"") :=
      Text.ofBytes?_eq_some_iff.2 (bytes_quoted text)
    have hi : Text.ofBytes? (Text.bytes text) = some text := Text.ofBytes?_eq_some_iff.2 rfl
    simp [token?, bytes_quoted, ht, hi]

theorem Reads.unique {p : Piece} {t t' : Token} (h : p.Reads t) (h' : p.Reads t') (hl : t.line = t'.line) :
    t = t' := by
  have e := h.token?_eq
  rw [hl, h'.token?_eq, Option.some.injEq] at e
  exact e.symm

theorem token?_eq_none {p : Piece} (h : p.shape.isLexeme = false) (line : Nat) : p.token? line = none := by
  obtain ⟨s, bs⟩ := p
  cases s with
  | mark | word | number | string => cases h
  | blank | lineComment | blockComment | stray | openString | openComment => rfl

theorem Faults.error?_eq {p : Piece} {e : LexicalError} (h : p.Faults e) : p.error? e.line = some e := by
  cases h <;> rfl

theorem error?_eq_none {p : Piece} (h : p.shape.isFault = false) (line : Nat) : p.error? line = none := by
  obtain ⟨s, bs⟩ := p
  cases s with
  | stray | openString | openComment => cases h
  | mark | word | number | string | blank | lineComment | blockComment => rfl

theorem exists_faults {p : Piece} {after : List UInt8} (h : p.shape.Admits p.bytes after) (hf : p.shape.isFault)
    (line : Nat) : ∃ e, p.Faults e ∧ e.line = line := by
  obtain ⟨s, bs⟩ := p
  rcases h with h | ⟨b, hs, hp, -⟩
  · cases h with
    | openString _ => exact ⟨_, .openString _ line, rfl⟩
    | openComment _ => exact ⟨_, .openComment _ line, rfl⟩
    | _ => cases hf
  · dsimp only at hs hp
    rw [hs, hp]
    exact ⟨_, .stray b line, rfl⟩

end Piece

end ScriptLexer
