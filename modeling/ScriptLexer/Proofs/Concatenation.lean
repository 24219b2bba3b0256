import ScriptLexer.Proofs.Lookahead
import ScriptLexer.Proofs.Occurrence

/-!
# Scripts one after the other

A blank byte continues no piece but a line comment, so the pieces of bytes without an open string or comment stay as
they are in front of one (`Piece.ofBytes_append_blank`).  A scan has no state but its line.  So the tokens and errors of
two scripts with a line feed between them are those of the first, then those of the second on later lines
(`tokenize_append_newline`).
-/

namespace ScriptLexer

namespace Piece

/-- A shape that goes on to the end of any script. -/
def Shape.isOpen : Shape → Bool
  | .openString | .openComment => true
  | _ => false

theorem Shape.isOpen_eq_false {s : Shape} (h : s.isFault = false) : s.isOpen = false := by
  cases s with
  | openString | openComment => cases h
  | _ => rfl

theorem Shape.Admits.of_closed {s : Shape} {p rest : List UInt8} (h : s.Admits p rest) (hs : s.isOpen = false)
    (rest' : List UInt8) : s.Admits p rest' := by
  rcases h with h | h
  · left
    cases h with
    | mark m => exact .mark m
    | word hb hw => exact .word hb hw
    | number hn => exact .number hn
    | string hq => exact .string hq
    | blank hb => exact .blank hb
    | lineComment hn => exact .lineComment hn
    | blockComment hc => exact .blockComment hc
    | openString _ => cases hs
    | openComment _ => cases hs
  · exact Or.inr h

/-! ### Blank bytes end pieces -/

/-- A blank byte does not continue a piece, unless the piece is a line comment and the byte no line feed. -/
theorem Shape.Stops.append_blank {s : Shape} {p rest : List UInt8} {b : UInt8} (h : s.Stops p rest)
    (hb : Byte.isBlank b) (hs : s = .lineComment → rest = [] → b = Byte.newline) (t : List UInt8) :
    s.Stops p (rest ++ b :: t) := by
  have hi := Byte.isInert_of_isBlank hb
  refine h.of_beginsLike (Byte.beginsLike_append hi rest t) ?_ ?_
  · intro r' e
    cases rest with
    | nil =>
      rw [List.nil_append, List.cons.injEq] at e
      rw [e.1] at hb
      exact absurd hb (by decide)
    | cons c rest =>
      rw [List.cons_append, List.cons.injEq] at e
      rw [e.1, ← e.2]
      exact ⟨rest, rfl, Byte.beginsLike_append hi rest t⟩
  · rintro rfl
    cases rest with
    | nil => exact Byte.halts_cons.2 (by simp [hs rfl rfl])
    | cons c rest =>
      have hc : Byte.Halts (· != Byte.newline) (c :: rest) := h
      rw [Byte.halts_cons] at hc
      rw [List.cons_append, Byte.halts_cons]
      exact hc

/-- The pieces of bytes without an open string or comment stay as they are in front of a blank byte.  Only a line
comment at their end needs that the byte is a line feed. -/
theorem ofBytes_append_blank {bs : List UInt8} {b : UInt8} (ho : ∀ p ∈ ofBytes bs, p.shape.isOpen = false)
    (hb : Byte.isBlank b) (hl : b = Byte.newline ∨ ∀ p ∈ (ofBytes bs).getLast?, p.shape ≠ .lineComment)
    (t : List UInt8) : ofBytes (bs ++ b :: t) = ofBytes bs ++ ⟨.blank, [b]⟩ :: ofBytes t := by
  induction bs using inductionOnPieces with
  | nil =>
    have ha : Shape.blank.Admits [b] t := Or.inl (.blank hb)
    rw [ofBytes_nil, List.nil_append]
    exact ofBytes_append ha trivial
  | cons s p rest ha hs ih =>
    -- the blank byte is at the end of what follows `p`, or is all of it if `p` is the last piece
    rw [ofBytes_append ha hs, List.forall_mem_cons] at ho
    rw [ofBytes_append ha hs] at hl
    have ih' := ih ho.2 (hl.imp_right fun h q hq => h q (List.mem_getLast?_cons hq))
    have hstop : s.Stops p (rest ++ b :: t) := by
      refine hs.append_blank hb ?_ t
      rintro rfl rfl
      rcases hl with hl | hl
      · exact hl
      · exact absurd rfl (hl ⟨.lineComment, p⟩ (by simp))
    rw [List.append_assoc, ofBytes_append (ha.of_closed ho.1 _) hstop, ih', ofBytes_append ha hs, List.cons_append]

theorem ofBytes_blanks_append {bs : List UInt8} (h : ∀ b ∈ bs, Byte.isBlank b) (t : List UInt8) :
    ofBytes (bs ++ t) = (bs.map fun b => ⟨.blank, [b]⟩) ++ ofBytes t := by
  induction bs with
  | nil => rfl
  | cons b bs ih =>
    rw [List.forall_mem_cons] at h
    have ha : Shape.blank.Admits [b] (bs ++ t) := Or.inl (.blank h.1)
    have e := ofBytes_append ha trivial
    rw [List.map_cons, List.cons_append, List.cons_append, ← ih h.2, ← e, List.singleton_append]

theorem ofBytes_blanks {bs : List UInt8} (h : ∀ b ∈ bs, Byte.isBlank b) :
    ofBytes bs = bs.map fun b => ⟨.blank, [b]⟩ := by
  have e := ofBytes_blanks_append h []
  rwa [List.append_nil, ofBytes_nil, List.append_nil] at e

end Piece

/-! ### Later lines -/

def Token.shift (n : Nat) (t : Token) : Token :=
  { t with line := t.line + n }

def LexicalError.shift (n : Nat) : LexicalError → LexicalError
  | .openComment line => .openComment (line + n)
  | .openString line => .openString (line + n)
  | .strayByte line b => .strayByte (line + n) b

namespace Piece

private theorem token?_add (n line : Nat) (p : Piece) : p.token? (line + n) = (p.token? line).map (Token.shift n) := by
  obtain ⟨s, bs⟩ := p
  cases s with
  | mark m => cases h : Text.ofBytes? bs <;> simp [token?, h, Token.shift]
  | word => cases h : Text.ofBytes? bs <;> simp [token?, h, Token.shift]
  | number =>
    cases h : Text.ofBytes? bs <;> cases h' : Numeral.ofBytes? bs <;> simp [token?, h, h', Token.shift]
  | string =>
    cases h : Text.ofBytes? bs <;> cases h' : Text.ofBytes? bs.tail.dropLast <;> simp [token?, h, h', Token.shift]
  | blank | lineComment | blockComment | stray | openString | openComment => rfl

private theorem error?_add (n line : Nat) (p : Piece) :
    p.error? (line + n) = (p.error? line).map (LexicalError.shift n) := by
  obtain ⟨s, bs⟩ := p
  cases s <;> rfl

private theorem isOpen_eq_false_of_gather {line : Nat} {ps : List Piece}
    (h : ∀ e ∈ gather error? line ps, e.cause ≠ .openString ∧ e.cause ≠ .openComment) :
    ∀ p ∈ ps, p.shape.isOpen = false := by
  induction ps generalizing line with
  | nil => simp
  | cons p ps ih =>
    rw [gather, List.forall_mem_append] at h
    rw [List.forall_mem_cons]
    refine ⟨?_, ih h.2⟩
    obtain ⟨s, bs⟩ := p
    cases s with
    | openString => exact absurd rfl (h.1 (.openString _) (Option.mem_toList.2 rfl)).1
    | openComment => exact absurd rfl (h.1 (.openComment _) (Option.mem_toList.2 rfl)).2
    | _ => rfl

end Piece

private theorem ofBytes_append_newline {a b : String}
    (h : ∀ e ∈ (tokenize a ({} : Storage LexicalError)).2.errors.toList,
      e.cause ≠ .openString ∧ e.cause ≠ .openComment) :
    Piece.ofBytes (Text.bytes (a ++ "\n" ++ b)) =
      Piece.ofBytes (Text.bytes a) ++ ⟨.blank, [Byte.newline]⟩ :: Piece.ofBytes (Text.bytes b) := by
  have hn : Text.bytes "\n" = [Byte.newline] := by decide
  rw [errors_tokenize] at h
  rw [Text.bytes_append, Text.bytes_append, hn, List.append_assoc, List.singleton_append]
  exact Piece.ofBytes_append_blank (Piece.isOpen_eq_false_of_gather h) (by decide) (Or.inl rfl) _

private theorem startLine_append_newline (a : String) :
    1 + Piece.newlinesIn (Piece.ofBytes (Text.bytes a)) + Piece.newlines ⟨.blank, [Byte.newline]⟩ =
      1 + ((Text.bytes a).count Byte.newline + 1) := by
  rw [Piece.newlinesIn_ofBytes, Nat.add_assoc]
  rfl

/-- If the first script has no open string or comment, the two scripts with a line feed between them have the tokens and
errors of the first, and then those of the second as many lines later as the first script and the line feed are. -/
theorem tokenize_append_newline {σ : Type} [Sink σ LexicalError] (a b : String) (sink : σ)
    (h : ∀ e ∈ (tokenize a ({} : Storage LexicalError)).2.errors.toList,
      e.cause ≠ .openString ∧ e.cause ≠ .openComment) :
    (tokenize (a ++ "\n" ++ b) sink).1.toList =
      (tokenize a sink).1.toList.dropLast ++
        (tokenize b sink).1.toList.map (Token.shift ((Text.bytes a).count Byte.newline + 1)) ∧
    (tokenize (a ++ "\n" ++ b) ({} : Storage LexicalError)).2.errors.toList =
      (tokenize a ({} : Storage LexicalError)).2.errors.toList ++
        (tokenize b ({} : Storage LexicalError)).2.errors.toList.map
          (LexicalError.shift ((Text.bytes a).count Byte.newline + 1)) := by
  have hp := ofBytes_append_newline (b := b) h
  have hl := startLine_append_newline a
  constructor
  · have hend : 1 + (Text.bytes (a ++ "\n" ++ b)).count Byte.newline =
        1 + (Text.bytes b).count Byte.newline + ((Text.bytes a).count Byte.newline + 1) := by
      have hn : Text.bytes "\n" = [Byte.newline] := by decide
      rw [Text.bytes_append, Text.bytes_append, hn, List.count_append, List.count_append, List.count_singleton_self]
      omega
    rw [TokenStream.dropLast_toList, TokenStream.toList, TokenStream.toList, TokenStream.last, TokenStream.last,
      body_tokenize, body_tokenize, body_tokenize, endLine_tokenize, endLine_tokenize, hp, hend,
      Piece.gather_append, Piece.gather, hl, Piece.gather_add (Piece.token?_add _), List.map_append, List.append_assoc]
    rfl
  · rw [errors_tokenize, errors_tokenize, errors_tokenize, hp, Piece.gather_append, Piece.gather, hl,
      Piece.gather_add (Piece.error?_add _)]
    rfl

/-- A slash at the end of the first script and one at the start of the second do not become a comment. -/
theorem tokenize_append_newline_slash :
    (∀ e ∈ (tokenize "x @ 1. /" ({} : Storage LexicalError)).2.errors.toList,
      e.cause ≠ .openString ∧ e.cause ≠ .openComment) ∧
    (tokenize ("x @ 1. /" ++ "\n" ++ "/ \"y") ({} : Storage LexicalError)).1.toList =
      (tokenize "x @ 1. /" ({} : Storage LexicalError)).1.toList.dropLast ++
        (tokenize "/ \"y" ({} : Storage LexicalError)).1.toList.map
          (Token.shift ((Text.bytes "x @ 1. /").count Byte.newline + 1)) ∧
    (tokenize ("x @ 1. /" ++ "\n" ++ "/ \"y") ({} : Storage LexicalError)).2.errors.toList =
      (tokenize "x @ 1. /" ({} : Storage LexicalError)).2.errors.toList ++
        (tokenize "/ \"y" ({} : Storage LexicalError)).2.errors.toList.map
          (LexicalError.shift ((Text.bytes "x @ 1. /").count Byte.newline + 1)) := by
  have h : ∀ e ∈ (tokenize "x @ 1. /" ({} : Storage LexicalError)).2.errors.toList,
      e.cause ≠ .openString ∧ e.cause ≠ .openComment := by decide +kernel
  exact ⟨h, tokenize_append_newline "x @ 1. /" "/ \"y" ({} : Storage LexicalError) h⟩

end ScriptLexer
