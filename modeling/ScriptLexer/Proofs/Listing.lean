import Mathlib.Data.List.Nodup
import Mathlib.Tactic.TFAE
import ScriptLexer.Proofs.Concatenation
import ScriptLexer.Proofs.DecimalText
import ScriptLexer.Proofs.Rounding

/-!
# Token listings

The lexeme of a token that a scan finds is one piece by itself, so it determines the kind and the literal of the token
(`Token.Scanned.eq_of_lexeme_eq`).  A line of a listing is read from the left: line number and kind have no spaces in
them, and the kind tells how lexeme and literal are separated, so the listing determines the token
(`Token.Scanned.eq_of_display_eq`).  No number literal is NaN, so equality by value holds of a token and itself
(`Token.Scanned.beq_self`).  The streams of two scripts are equal by value exactly if their lexemes and lines are, and
exactly if their listings are (`tokenize_listing`).
-/

namespace ScriptLexer

/-! ### Names of kinds -/

namespace Token.Kind

theorem mem_all (k : Kind) : k ∈ all := by
  have hm (m : Mark) : .mark m ∈ Mark.all.map Kind.mark := List.mem_map_of_mem m.mem_all
  have hk (k : Keyword) : .keyword k ∈ Keyword.all.map Kind.keyword := List.mem_map_of_mem k.mem_all
  cases k with
  | mark m => simp [all, hm m]
  | keyword k => simp [all, hk k]
  | _ => simp [all]

private theorem name_injective : Function.Injective name := by
  have h : (all.map name).Nodup := by decide +kernel
  intro k k' e
  exact List.inj_on_of_nodup_map h k.mem_all k'.mem_all e

private theorem space_notMem_name (k : Kind) : ' ' ∉ k.name.toList := by
  have h : ∀ k ∈ all, ' ' ∉ k.name.toList := by decide +kernel
  exact h k k.mem_all

end Token.Kind

namespace Piece

/-- A lexeme is one piece by itself. -/
private theorem ofBytes_lexeme {s : Shape} {p rest : List UInt8} (h : s.Admits p rest) (hl : s.isLexeme) :
    ofBytes p = [⟨s, p⟩] := by
  have ho : s.isOpen = false := by
    cases s with
    | openString | openComment => cases hl
    | _ => rfl
  exact ofBytes_single (h.of_closed ho [])

private theorem Reads.withLine {p : Piece} {t : Token} (h : p.Reads t) (line : Nat) : p.Reads { t with line } := by
  cases h with
  | mark m => exact .mark m line
  | keyword k => exact .keyword k line
  | identifier _ hk => exact .identifier line hk
  | number _ hn => exact .number line hn
  | string text => exact .string text line

end Piece

namespace Token

/-! ### The tokens of scans -/

/-- The token is the one of a lexeme, or the end of a script. -/
def Scanned (t : Token) : Prop :=
  t = eof t.line ∨ ∃ p : Piece, Piece.ofBytes p.bytes = [p] ∧ p.Reads t

end Token

theorem scanned_of_mem {σ : Type} [Sink σ LexicalError] {source : String} {sink : σ} {t : Token}
    (h : t ∈ (tokenize source sink).1.toList) : t.Scanned := by
  rw [TokenStream.toList, List.mem_append, List.mem_singleton] at h
  rcases h with h | rfl
  · right
    obtain ⟨i, hi, rfl⟩ := List.getElem_of_mem h
    have ho := List.getElem?_eq_getElem (Occurrence.length_lexemes source sink ▸ hi)
    obtain ⟨t, ht, hr, -⟩ := Occurrence.exists_token_of_lexeme source sink ho
    rw [List.getElem?_eq_getElem hi, Option.some.injEq] at ht
    obtain ⟨hmem, hl⟩ := List.mem_filter.1 (List.getElem_mem (Occurrence.length_lexemes source sink ▸ hi))
    exact ⟨_, Piece.ofBytes_lexeme (Occurrence.admits_of_mem hmem).2.1 hl, ht ▸ hr⟩
  · exact Or.inl rfl

namespace Token.Scanned

variable {t t' : Token}

private theorem lexeme_ne_empty {p : Piece} (hp : Piece.ofBytes p.bytes = [p]) (h : p.Reads t) : t.lexeme ≠ "" := by
  intro e
  have hb := h.bytes_lexeme
  have hn : Text.bytes "" = [] := by decide
  rw [e, hn] at hb
  rw [← hb, Piece.ofBytes_nil] at hp
  cases hp

/-- The lexeme determines the kind and the literal. -/
theorem eq_of_lexeme_eq (h : t.Scanned) (h' : t'.Scanned) (e : t.lexeme = t'.lexeme) :
    t.kind = t'.kind ∧ t.literal = t'.literal := by
  rcases h with h | ⟨p, hp, hr⟩ <;> rcases h' with h' | ⟨p', hp', hr'⟩
  · rw [h, h']
    exact ⟨rfl, rfl⟩
  · rw [h] at e
    exact absurd e.symm (lexeme_ne_empty hp' hr')
  · rw [h'] at e
    exact absurd e (lexeme_ne_empty hp hr)
  · -- the two lexemes are the same piece
    have hb : p.bytes = p'.bytes := by rw [← hr.bytes_lexeme, ← hr'.bytes_lexeme, e]
    obtain rfl : p = p' := by rwa [hb, hp', List.singleton_inj, eq_comm] at hp
    have ht := (hr.withLine 0).unique (hr'.withLine 0) rfl
    rw [mk.injEq] at ht
    exact ⟨ht.1, ht.2.2.1⟩

private theorem eq_of_lexeme_and_line_eq (h : t.Scanned) (h' : t'.Scanned) (e : t.lexeme = t'.lexeme)
    (hl : t.line = t'.line) : t = t' := by
  obtain ⟨hk, hlit⟩ := h.eq_of_lexeme_eq h' e
  rw [mk.injEq]
  exact ⟨hk, e, hlit, hl⟩

end Token.Scanned

/-! ### Reading a listing -/

namespace Token

/-- The text of the literal of a token in a listing. -/
def literalText (t : Token) : String :=
  match t.literal with
  | some l => l.render
  | none => "No Literal"

private theorem toList_display (t : Token) :
    t.display.toList = Nat.toDigits 10 t.line ++ ' ' ::
      (t.kind.name.toList ++ ' ' :: (t.lexeme.toList ++ ' ' :: t.literalText.toList)) := by
  have hs : " ".toList = [' '] := rfl
  simp only [display, literalText, String.toList_append, hs, Nat.toString_eq_ofList_toDigits, String.toList_ofList]
  simp only [List.append_assoc, List.singleton_append]
  rfl

namespace Scanned

variable {t t' : Token}

private theorem literal_eq_none (h : t.Scanned) (hs : t.kind ≠ .string) (hn : t.kind ≠ .number) : t.literal = none := by
  rcases h with h | ⟨p, -, h⟩
  · rw [h]
    rfl
  · cases h with
    | number => exact absurd rfl hn
    | string => exact absurd rfl hs
    | _ => rfl

private theorem space_notMem_lexeme (h : t.Scanned) (hn : t.kind = .number) : ' ' ∉ t.lexeme.toList := by
  rcases h with h | ⟨p, -, h⟩
  · rw [h] at hn
    cases hn
  · cases h with
    | @number w n line hs =>
      intro hw
      have hb : 0x20 ∈ Text.bytes w := by
        rw [Text.bytes_eq_encode]
        exact List.mem_flatMap.2 ⟨' ', hw, by decide⟩
      rcases hs.isDigit_or_eq_dot _ hb with h | h
      · exact absurd h (by decide)
      · exact absurd h (by decide)
    | _ => cases hn

private theorem exists_text (h : t.Scanned) (hs : t.kind = .string) :
    ∃ text, t.lexeme = "\"" ++ text ++ "\"" ∧ t.literal = some (.text text) := by
  rcases h with h | ⟨p, -, h⟩
  · rw [h] at hs
    cases hs
  · cases h with
    | string text => exact ⟨text, rfl, rfl⟩
    | _ => cases hs

/-- Lexeme and literal can be told apart in a listing if the kind is known. -/
private theorem lexeme_eq_of_kind_eq (h : t.Scanned) (h' : t'.Scanned) (hk : t.kind = t'.kind)
    (e : t.lexeme.toList ++ ' ' :: t.literalText.toList = t'.lexeme.toList ++ ' ' :: t'.literalText.toList) :
    t.lexeme = t'.lexeme := by
  by_cases hn : t.kind = .number
  · -- a numeral has no space in it
    have hl := append_cons_inj (h.space_notMem_lexeme hn) (h'.space_notMem_lexeme (hk ▸ hn)) e
    exact String.toList_inj.1 hl.1
  by_cases hs : t.kind = .string
  · -- the text of a string is there twice, so the length tells where it ends
    obtain ⟨text, hl, ht⟩ := h.exists_text hs
    obtain ⟨text', hl', ht'⟩ := h'.exists_text (hk ▸ hs)
    rw [literalText, literalText, hl, hl', ht, ht'] at e
    have e2 := congrArg List.length e
    simp only [Literal.render, String.toList_append, List.length_append, List.length_cons] at e2
    have hlen : ("\"" ++ text ++ "\"").toList.length = ("\"" ++ text' ++ "\"").toList.length := by
      simp only [String.toList_append, List.length_append]
      omega
    rw [hl, hl']
    exact String.toList_inj.1 (List.append_inj e hlen).1
  · have hl := h.literal_eq_none hs hn
    have hl' := h'.literal_eq_none (hk ▸ hs) (hk ▸ hn)
    rw [literalText, literalText, hl, hl'] at e
    exact String.toList_inj.1 (List.append_cancel_right e)

theorem eq_of_display_eq (h : t.Scanned) (h' : t'.Scanned) (e : t.display = t'.display) : t = t' := by
  have e1 : t.display.toList = t'.display.toList := congrArg String.toList e
  rw [toList_display, toList_display] at e1
  obtain ⟨hline, e2⟩ := toDigits_append_inj (by decide) e1
  obtain ⟨hname, e3⟩ := append_cons_inj t.kind.space_notMem_name t'.kind.space_notMem_name e2
  have hkind := Kind.name_injective (String.toList_inj.1 hname)
  exact h.eq_of_lexeme_and_line_eq h' (lexeme_eq_of_kind_eq h h' hkind e3) hline

end Scanned

end Token

/-! ### Equality by value -/

theorem Binary64.beq_self {x : Binary64} (h : x.isNaN = false) : (x == x) = true := by
  have hc : compare x.key x.key = .eq := Std.ReflCmp.compare_self
  have e : (x == x) = (x.compare? x == some .eq) := rfl
  rw [e, compare?, h, hc]
  rfl

private theorem Literal.some_number_beq (x y : Binary64) : (some (number x) == some (number y)) = (x == y) := rfl

private theorem Literal.some_text_beq (s t : String) : (some (text s) == some (text t)) = (s == t) := rfl

private theorem Numeral.isNaN_toBinary64 (n : Numeral) : n.toBinary64.isNaN = false := by
  have h := Binary64.magnitude_nearest_le n.numerator n.denominator
  rw [Binary64.isNaN, decide_eq_false_iff_not, Nat.not_lt]
  exact h

namespace Token

private theorem eq_of_beq {t t' : Token} (h : (t == t') = true) : t.lexeme = t'.lexeme ∧ t.line = t'.line := by
  have h' : (t.kind == t'.kind && t.lexeme == t'.lexeme && t.literal == t'.literal && t.line == t'.line) = true := h
  simp only [Bool.and_eq_true, beq_iff_eq] at h'
  exact ⟨h'.1.1.2, h'.2⟩

theorem Scanned.isNaN_eq_false {t : Token} (h : t.Scanned) {x : Binary64} (hx : t.literal = some (.number x)) :
    x.isNaN = false := by
  rcases h with h | ⟨p, -, h⟩
  · rw [h] at hx
    cases hx
  · cases h with
    | @number w n =>
      cases hx
      exact n.isNaN_toBinary64
    | string text => cases hx
    | _ => cases hx

private theorem beq_self_of_literal {t : Token} (h : (t.literal == t.literal) = true) : (t == t) = true := by
  have e : (t == t) = (t.kind == t.kind && t.lexeme == t.lexeme && t.literal == t.literal && t.line == t.line) := rfl
  rw [e, h]
  simp only [beq_self_eq_true, Bool.and_self]

theorem Scanned.beq_self {t : Token} (h : t.Scanned) : (t == t) = true := by
  apply beq_self_of_literal
  cases hl : t.literal with
  | none => rfl
  | some l =>
    cases l with
    | text s =>
      rw [Literal.some_text_beq]
      exact beq_self_eq_true s
    | number x =>
      rw [Literal.some_number_beq]
      exact Binary64.beq_self (h.isNaN_eq_false hl)

private theorem map_eq_of_beq {ts ts' : List Token} (h : (ts == ts') = true) :
    ts.map (fun t => (t.lexeme, t.line)) = ts'.map fun t => (t.lexeme, t.line) := by
  induction ts generalizing ts' with
  | nil =>
    cases ts' with
    | nil => rfl
    | cons t' ts' => cases h
  | cons t ts ih =>
    cases ts' with
    | nil => cases h
    | cons t' ts' =>
      rw [List.cons_beq_cons, Bool.and_eq_true] at h
      obtain ⟨hw, hl⟩ := eq_of_beq h.1
      rw [List.map_cons, List.map_cons, ih h.2, hw, hl]

private theorem list_beq_self {ts : List Token} (h : ∀ t ∈ ts, t.Scanned) : (ts == ts) = true := by
  induction ts with
  | nil => rfl
  | cons t ts ih =>
    rw [List.forall_mem_cons] at h
    rw [List.cons_beq_cons, h.1.beq_self, ih h.2]
    rfl

/-- What determines each token of a scan determines lists of them. -/
private theorem eq_of_map_eq {β : Type} {f : Token → β} (hf : ∀ t t', t.Scanned → t'.Scanned → f t = f t' → t = t')
    {ts ts' : List Token} (h : ∀ t ∈ ts, t.Scanned) (h' : ∀ t ∈ ts', t.Scanned) (e : ts.map f = ts'.map f) :
    ts = ts' := by
  induction ts generalizing ts' with
  | nil => exact (List.map_eq_nil_iff.1 e.symm).symm
  | cons t ts ih =>
    cases ts' with
    | nil => cases e
    | cons t' ts' =>
      rw [List.map_cons, List.map_cons, List.cons.injEq] at e
      rw [List.forall_mem_cons] at h h'
      rw [hf t t' h.1 h'.1 e.1, ih h.2 h'.2 e.2]

end Token

namespace TokenStream

private theorem toList_injective : Function.Injective toList := by
  intro s s' e
  obtain ⟨hb, hl⟩ := List.append_inj' e rfl
  rw [List.singleton_inj, last, last, Token.eof, Token.eof, Token.mk.injEq] at hl
  exact eq_of_body_eq hb hl.2.2.2

private theorem beq_eq (s s' : TokenStream) : (s == s') = (s.body.toList == s'.body.toList && s.last == s'.last) := by
  rw [Array.beq_toList]
  rfl

private theorem map_eq_of_beq {s s' : TokenStream} (h : (s == s') = true) :
    s.toList.map (fun t => (t.lexeme, t.line)) = s'.toList.map fun t => (t.lexeme, t.line) := by
  rw [beq_eq, Bool.and_eq_true] at h
  obtain ⟨hw, hl⟩ := Token.eq_of_beq h.2
  rw [toList, toList, List.map_append, List.map_append, Token.map_eq_of_beq h.1, List.map_singleton,
    List.map_singleton, hw, hl]

theorem beq_self {s : TokenStream} (h : ∀ t ∈ s.toList, t.Scanned) : (s == s) = true := by
  rw [toList, List.forall_mem_append, List.forall_mem_singleton] at h
  rw [beq_eq, Token.list_beq_self h.1, h.2.beq_self]
  rfl

end TokenStream

private theorem eq_of_lexeme_line (t t' : Token) (h : t.Scanned) (h' : t'.Scanned)
    (e : (t.lexeme, t.line) = (t'.lexeme, t'.line)) : t = t' := by
  rw [Prod.mk.injEq] at e
  exact h.eq_of_lexeme_and_line_eq h' e.1 e.2

/-- Two scripts have streams that are equal by value exactly if the lexemes and lines of their tokens are equal, and
exactly if their listings are.  So equality by value is an equivalence on the streams of scripts, which it is not on
all literals, since NaN is the literal of no token.  The lexeme of a token of a script determines its kind and its
literal, and its line in a listing determines all of it. -/
theorem tokenize_listing {σ : Type} [Sink σ LexicalError] (sink : σ) :
    (∀ source source' : String,
      [(((tokenize source sink).1 == (tokenize source' sink).1) = true),
        (tokenize source sink).1.toList.map (fun t => (t.lexeme, t.line)) =
          (tokenize source' sink).1.toList.map (fun t => (t.lexeme, t.line)),
        (tokenize source sink).1.toList.map Token.display =
          (tokenize source' sink).1.toList.map Token.display].TFAE) ∧
    (Equivalence fun source source' : String => ((tokenize source sink).1 == (tokenize source' sink).1) = true) ∧
    (∃ l : Literal, (l == l) = false) ∧
    (∀ source : String, ∀ t ∈ (tokenize source sink).1.toList, ∀ x : Binary64,
      t.literal = some (.number x) → x.isNaN = false) ∧
    ∀ source source' : String, ∀ t ∈ (tokenize source sink).1.toList, ∀ t' ∈ (tokenize source' sink).1.toList,
      (t.lexeme = t'.lexeme → t.kind = t'.kind ∧ t.literal = t'.literal) ∧ (t.display = t'.display → t = t') := by
  have hself (source : String) : ((tokenize source sink).1 == (tokenize source sink).1) = true :=
    TokenStream.beq_self fun _ => scanned_of_mem
  have heq {β : Type} {f : Token → β} (hf : ∀ t t', t.Scanned → t'.Scanned → f t = f t' → t = t')
      (source source' : String)
      (e : (tokenize source sink).1.toList.map f = (tokenize source' sink).1.toList.map f) :
      (tokenize source sink).1 = (tokenize source' sink).1 :=
    TokenStream.toList_injective (Token.eq_of_map_eq hf (fun _ => scanned_of_mem) (fun _ => scanned_of_mem) e)
  refine ⟨fun source source' => ?_, ⟨hself, fun h => ?_, fun h h' => ?_⟩, ?_, ?_, ?_⟩
  · tfae_have 1 → 2 := TokenStream.map_eq_of_beq
    tfae_have 2 → 3 := fun e => by rw [heq eq_of_lexeme_line source source' e]
    tfae_have 3 → 1 := fun e => by
      rw [heq (fun t t' => Token.Scanned.eq_of_display_eq) source source' e]
      exact hself source'
    tfae_finish
  · rw [heq eq_of_lexeme_line _ _ (TokenStream.map_eq_of_beq h)]
    exact hself _
  · rw [heq eq_of_lexeme_line _ _ (TokenStream.map_eq_of_beq h)]
    exact h'
  · exact ⟨.number ⟨0x7FF8000000000000⟩, by decide⟩
  · intro source t ht x hx
    exact (scanned_of_mem ht).isNaN_eq_false hx
  · intro source source' t ht t' ht'
    have h := scanned_of_mem ht
    have h' := scanned_of_mem ht'
    exact ⟨h.eq_of_lexeme_eq h', h.eq_of_display_eq h'⟩

/-- Blanks do not show in a listing, and a string with the words of a listing in it is listed as any other. -/
theorem tokenize_listing_blanks :
    ((tokenize "1 \"No Literal\"" ({} : Storage LexicalError)).1 ==
      (tokenize "1\t\"No Literal\"" ({} : Storage LexicalError)).1) = true ∧
    ((tokenize "1\t\"No Literal\"" ({} : Storage LexicalError)).1 ==
      (tokenize "1  \"No Literal\"" ({} : Storage LexicalError)).1) = true ∧
    ((tokenize "1 \"No Literal\"" ({} : Storage LexicalError)).1 ==
      (tokenize "1  \"No Literal\"" ({} : Storage LexicalError)).1) = true ∧
    (∃ t ∈ (tokenize "1 \"No Literal\"" ({} : Storage LexicalError)).1.toList,
      ∃ x, t.literal = some (.number x) ∧ x.isNaN = false) ∧
    ∃ t ∈ (tokenize "1 \"No Literal\"" ({} : Storage LexicalError)).1.toList,
      ∃ t' ∈ (tokenize "1\t\"No Literal\"" ({} : Storage LexicalError)).1.toList,
        t.lexeme = t'.lexeme ∧ t.kind = t'.kind ∧ t.literal = t'.literal ∧
          t.display = "1 STRING \"No Literal\" No Literal" ∧ t.display = t'.display ∧ t = t' := by
  obtain ⟨-, heq, -, hnan, ht⟩ := tokenize_listing ({} : Storage LexicalError)
  have h : ((tokenize "1 \"No Literal\"" ({} : Storage LexicalError)).1 ==
      (tokenize "1\t\"No Literal\"" ({} : Storage LexicalError)).1) = true := by decide +kernel
  have h' : ((tokenize "1\t\"No Literal\"" ({} : Storage LexicalError)).1 ==
      (tokenize "1  \"No Literal\"" ({} : Storage LexicalError)).1) = true := by decide +kernel
  have hx : (⟨.number, "1", some (.number ⟨0x3FF0000000000000⟩), 1⟩ : Token) ∈
      (tokenize "1 \"No Literal\"" ({} : Storage LexicalError)).1.toList :=
    List.mem_of_getElem? (i := 0) (by decide +kernel)
  have hm : (⟨.string, "\"No Literal\"", some (.text "No Literal"), 1⟩ : Token) ∈
      (tokenize "1 \"No Literal\"" ({} : Storage LexicalError)).1.toList :=
    List.mem_of_getElem? (i := 1) (by decide +kernel)
  have hm' : (⟨.string, "\"No Literal\"", some (.text "No Literal"), 1⟩ : Token) ∈
      (tokenize "1\t\"No Literal\"" ({} : Storage LexicalError)).1.toList :=
    List.mem_of_getElem? (i := 1) (by decide +kernel)
  obtain ⟨hk, hl⟩ := (ht _ _ _ hm _ hm').1 rfl
  have hd : (⟨.string, "\"No Literal\"", some (.text "No Literal"), 1⟩ : Token).display =
      "1 STRING \"No Literal\" No Literal" := by decide +kernel
  exact ⟨h, h', heq.trans h h', ⟨_, hx, _, rfl, hnan _ _ hx _ rfl⟩, _, hm, _, hm', rfl, hk, hl, hd, rfl,
    (ht _ _ _ hm _ hm').2 rfl⟩

end ScriptLexer
