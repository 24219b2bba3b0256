import Mathlib.Data.List.DropRight
import ScriptLexer.Proofs.Concatenation

/-!
# Appending to a script

More text after a script changes a piece only if fewer than two bytes follow it, and it changes no stray byte
(`Piece.exists_common_pieces`).  So the lexemes that end at least two bytes before the end of the script stand in the
longer script at the same places (`Occurrence.lexeme_append`), and with them the tokens, and the stray bytes are still
reported (`tokenize_append`).
-/

namespace ScriptLexer

/-! ### Common pieces -/

namespace Piece

/-- Bytes after a script that is longer than one byte, or is one byte other than a point, do not continue a piece that
the script does not continue. -/
theorem Shape.Stops.append {s : Shape} {p rest : List UInt8} (h : s.Stops p rest) (hne : rest ≠ [])
    (hdot : rest ≠ [Byte.dot]) (t : List UInt8) : s.Stops p (rest ++ t) := by
  obtain ⟨c, r, rfl⟩ := List.exists_cons_of_ne_nil hne
  refine h.of_beginsLike (Byte.beginsLike_cons c (r ++ t) r) ?_ ?_
  · intro r' e
    rw [List.cons_append, List.cons.injEq] at e
    obtain ⟨rfl, rfl⟩ := e
    have hr : r ≠ [] := by
      rintro rfl
      exact hdot rfl
    obtain ⟨x, r, rfl⟩ := List.exists_cons_of_ne_nil hr
    exact ⟨_, rfl, Byte.beginsLike_cons x (r ++ t) r⟩
  · rintro rfl
    have hc : Byte.Halts (· != Byte.newline) (c :: r) := h
    rw [Byte.halts_cons] at hc
    rw [List.cons_append, Byte.halts_cons]
    exact hc

theorem Shape.Admits.isOpen_eq_false {s : Shape} {p rest : List UInt8} (h : s.Admits p rest) (hne : rest ≠ []) :
    s.isOpen = false := by
  rcases h with h | ⟨b, rfl, -, -⟩
  · cases h with
    | openString | openComment => exact absurd rfl hne
    | _ => rfl
  · rfl

private theorem ofBytes_dot : ofBytes [Byte.dot] = [⟨.mark .dot, [Byte.dot]⟩] := by
  decide +kernel

/-- Some bytes and longer ones begin with the same pieces, all of them closed.  Of the other pieces of the shorter
bytes none is a stray byte, and the first has fewer than two bytes after it. -/
theorem exists_common_pieces (bs t : List UInt8) :
    ∃ ps qs rs, ofBytes bs = ps ++ qs ∧ ofBytes (bs ++ t) = ps ++ rs ∧ (∀ p ∈ ps, p.shape.isOpen = false) ∧
      (∀ p ∈ qs, ∀ b, p.shape ≠ .stray b) ∧ ((qs.tail).map bytes).flatten.length < 2 := by
  induction bs using inductionOnPieces with
  | nil => exact ⟨[], [], _, by simp, rfl, by simp, by simp, by simp⟩
  | cons s p rest ha hs ih =>
    by_cases hk : s.isOpen = false ∧ s.Stops p (rest ++ t)
    · obtain ⟨ps, qs, rs, e1, e2, hc, hq, hl⟩ := ih
      refine ⟨⟨s, p⟩ :: ps, qs, rs, ?_, ?_, List.forall_mem_cons.2 ⟨hk.1, hc⟩, hq, hl⟩
      · rw [ofBytes_append ha hs, e1, List.cons_append]
      · rw [List.append_assoc, ofBytes_append (ha.of_closed hk.1 _) hk.2, e2, List.cons_append]
    · -- what the new bytes can continue has nothing or a single point after it
      have hrest : rest = [] ∨ rest = [Byte.dot] := by
        by_contra hr
        rw [not_or] at hr
        exact hk ⟨ha.isOpen_eq_false hr.1, hs.append hr.1 hr.2 t⟩
      have hstray : ∀ b, s ≠ .stray b := by
        rintro b rfl
        exact hk ⟨rfl, trivial⟩
      refine ⟨[], ofBytes (p ++ rest), _, rfl, rfl, by simp, ?_, ?_⟩
      all_goals rw [ofBytes_append ha hs]
      · rw [List.forall_mem_cons]
        refine ⟨hstray, ?_⟩
        rcases hrest with rfl | rfl
        · simp
        · rw [ofBytes_dot, List.forall_mem_singleton]
          exact fun b => Shape.noConfusion
      · rw [List.tail_cons, flatten_ofBytes]
        rcases hrest with rfl | rfl <;> simp

theorem exists_of_mem_gather {α : Type} {f : Nat → Piece → Option α} {line : Nat} {ps : List Piece} {x : α}
    (h : x ∈ gather f line ps) : ∃ p ∈ ps, ∃ line', f line' p = some x := by
  induction ps generalizing line with
  | nil => cases h
  | cons p ps ih =>
    rw [gather, List.mem_append, Option.mem_toList] at h
    rcases h with h | h
    · exact ⟨p, List.mem_cons_self, _, h⟩
    · obtain ⟨q, hq, hx⟩ := ih h
      exact ⟨q, List.mem_cons_of_mem p hq, hx⟩

theorem cause_of_isOpen_eq_false {p : Piece} {line : Nat} {e : LexicalError} (hp : p.shape.isOpen = false)
    (he : p.error? line = some e) : e.cause = .strayByte := by
  obtain ⟨s, bs⟩ := p
  cases s with
  | stray b =>
    cases he
    rfl
  | openString | openComment => cases hp
  | _ => cases he

private theorem exists_stray_of_cause {p : Piece} {line : Nat} {e : LexicalError} (he : p.error? line = some e)
    (hc : e.cause = .strayByte) : ∃ b, p.shape = .stray b := by
  obtain ⟨s, bs⟩ := p
  cases s with
  | stray b => exact ⟨b, rfl⟩
  | openString | openComment =>
    cases he
    cases hc
  | _ => cases he

end Piece

/-! ### Occurrences in the longer script -/

namespace Occurrence

/-- The same piece at the same place in scripts that may differ after it. -/
def SamePlace (o o' : Occurrence) : Prop :=
  o.before = o'.before ∧ o.piece = o'.piece

def extend (t : List UInt8) (o : Occurrence) : Occurrence :=
  { o with after := o.after ++ t }

private theorem samePlace_extend (t t' : List UInt8) (o : Occurrence) : (o.extend t).SamePlace (o.extend t') :=
  ⟨rfl, rfl⟩

private theorem listFrom_append (before : List UInt8) (ps qs : List Piece) :
    listFrom before (ps ++ qs) = (listFrom before ps).map (extend (qs.map Piece.bytes).flatten) ++
      listFrom (before ++ (ps.map Piece.bytes).flatten) qs := by
  induction ps generalizing before with
  | nil => simp [listFrom]
  | cons p ps ih => simp [listFrom, ih, extend]

private theorem filter_extend (t : List UInt8) (os : List Occurrence) :
    (os.map (extend t)).filter isLexeme = (os.filter isLexeme).map (extend t) := by
  rw [List.filter_map]
  rfl

private theorem length_after_le {before : List UInt8} {ps : List Piece} {o : Occurrence} (h : o ∈ listFrom before ps) :
    o.after.length ≤ ((ps.tail).map Piece.bytes).flatten.length := by
  induction ps generalizing before with
  | nil => simp [listFrom] at h
  | cons p ps ih =>
    rw [listFrom, List.mem_cons] at h
    rcases h with rfl | h
    · exact Nat.le_refl _
    · refine Nat.le_trans (ih h) ?_
      cases ps <;> simp

/-- A lexeme that ends two bytes before the end of a script is a lexeme of any longer script, at the same place and
with the same index. -/
theorem lexeme_append {a b : String} {i : Nat} {o : Occurrence} (h : (lexemes a)[i]? = some o)
    (ho : o.endOffset + 2 ≤ (Text.bytes a).length) : ∃ o', (lexemes (a ++ b))[i]? = some o' ∧ o.SamePlace o' := by
  have hmem : o ∈ ofSource a := (List.mem_filter.1 (List.mem_of_getElem? h)).1
  obtain ⟨ps, qs, rs, e1, e2, -, -, hl⟩ := Piece.exists_common_pieces (Text.bytes a) (Text.bytes b)
  rw [lexemes, ofSource, e1, listFrom_append, List.filter_append, filter_extend] at h
  rw [lexemes, ofSource, Text.bytes_append, e2, listFrom_append, List.filter_append, filter_extend]
  by_cases hi : i < ((listFrom [] ps).filter isLexeme).length
  · rw [List.getElem?_append_left (by simpa using hi), List.getElem?_map, List.getElem?_eq_getElem hi,
      Option.map_some, Option.some.injEq] at h
    rw [List.getElem?_append_left (by simpa using hi), List.getElem?_map, List.getElem?_eq_getElem hi, ← h]
    exact ⟨_, rfl, samePlace_extend _ _ _⟩
  · -- all other lexemes have fewer than two bytes after them
    rw [List.getElem?_append_right (by simpa using hi)] at h
    have hle := length_after_le (List.mem_filter.1 (List.mem_of_getElem? h)).1
    have hlen := endOffset_add_length_after hmem
    omega

private theorem length_lt_endOffset {before bs : List UInt8} {o : Occurrence}
    (h : o ∈ listFrom before (Piece.ofBytes bs)) : before.length < o.endOffset := by
  induction bs using Piece.inductionOnPieces generalizing before with
  | nil => simp [listFrom] at h
  | cons s p rest ha hs ih =>
    have hp : 0 < p.length := List.length_pos_iff.2 ha.ne_nil
    rw [Piece.ofBytes_append ha hs, listFrom, List.mem_cons] at h
    rcases h with rfl | h
    · simp only [endOffset, List.length_append]
      omega
    · have hlt := ih h
      rw [List.length_append] at hlt
      omega

private theorem pairwise_endOffset (before bs : List UInt8) :
    (listFrom before (Piece.ofBytes bs)).Pairwise fun o o' => o.endOffset < o'.endOffset := by
  induction bs using Piece.inductionOnPieces generalizing before with
  | nil => simp [listFrom]
  | cons s p rest ha hs ih =>
    rw [Piece.ofBytes_append ha hs, listFrom]
    exact .cons (fun o ho => length_lt_endOffset ho) (ih _)

private theorem pairwise_lexemes (source : String) :
    (lexemes source).Pairwise fun o o' => o.endOffset < o'.endOffset :=
  (pairwise_endOffset [] (Text.bytes source)).filter isLexeme

/-- A lexeme with two more lexemes after it ends two bytes before the end of the script. -/
private theorem endOffset_add_two_le {source : String} {i : Nat} {o : Occurrence} (h : (lexemes source)[i]? = some o)
    (hi : i + 2 < (lexemes source).length) : o.endOffset + 2 ≤ (Text.bytes source).length := by
  have hlt := List.pairwise_iff_getElem.1 (pairwise_lexemes source)
  have h1 := hlt i (i + 1) (by omega) (by omega) (by omega)
  have h2 := hlt (i + 1) (i + 2) (by omega) hi (by omega)
  have hlen := endOffset_add_length_after (List.mem_filter.1 (List.getElem_mem hi)).1
  obtain ⟨_, rfl⟩ := List.getElem?_eq_some_iff.1 h
  omega

/-! ### Tokens of the longer script -/

private theorem SamePlace.token_eq {o o' : Occurrence} (h : o.SamePlace o') {t t' : Token} (ht : o.piece.Reads t)
    (ht' : o'.piece.Reads t') (hl : t.line = o.endLine) (hl' : t'.line = o'.endLine) : t = t' := by
  refine ht.unique (h.2 ▸ ht') ?_
  rw [hl, hl', endLine, endLine, h.1, h.2]

end Occurrence

section Append

variable {σ : Type} [Sink σ LexicalError] (a b : String) (sink : σ)

private theorem token_append {i : Nat} {o : Occurrence} (h : (Occurrence.lexemes a)[i]? = some o)
    (ho : o.endOffset + 2 ≤ (Text.bytes a).length) :
    (tokenize (a ++ b) sink).1.body.toList[i]? = (tokenize a sink).1.body.toList[i]? := by
  obtain ⟨o', h', hs⟩ := Occurrence.lexeme_append (b := b) h ho
  obtain ⟨t, e, ht, hl⟩ := Occurrence.exists_token_of_lexeme a sink h
  obtain ⟨t', e', ht', hl'⟩ := Occurrence.exists_token_of_lexeme (a ++ b) sink h'
  rw [e, e', hs.token_eq ht ht' hl hl']

private theorem body_rdrop_isPrefix :
    (tokenize a sink).1.body.toList.rdrop 2 <+: (tokenize (a ++ b) sink).1.body.toList := by
  have hlen := Occurrence.length_lexemes a sink
  rw [List.rdrop, List.prefix_iff_getElem?]
  intro i hi
  rw [List.length_take] at hi
  have ho := List.getElem?_eq_getElem (l := Occurrence.lexemes a) (i := i) (by omega)
  rw [token_append a b sink ho (Occurrence.endOffset_add_two_le ho (by omega)), List.getElem_take]
  exact List.getElem?_eq_getElem (by omega)

private theorem strayBytes_isPrefix :
    (tokenize a ({} : Storage LexicalError)).2.errors.toList.filter (·.cause == .strayByte) <+:
      (tokenize (a ++ b) ({} : Storage LexicalError)).2.errors.toList := by
  obtain ⟨ps, qs, rs, e1, e2, hc, hq, -⟩ := Piece.exists_common_pieces (Text.bytes a) (Text.bytes b)
  have hps : ∀ e ∈ Piece.gather Piece.error? 1 ps, (e.cause == .strayByte) = true := by
    intro e he
    obtain ⟨p, hp, line, hpe⟩ := Piece.exists_of_mem_gather he
    exact beq_iff_eq.2 (Piece.cause_of_isOpen_eq_false (hc p hp) hpe)
  have hqs : ∀ e ∈ Piece.gather Piece.error? (1 + Piece.newlinesIn ps) qs, ¬ (e.cause == .strayByte) = true := by
    intro e he hs
    obtain ⟨p, hp, line, hpe⟩ := Piece.exists_of_mem_gather he
    obtain ⟨x, hx⟩ := Piece.exists_stray_of_cause hpe (beq_iff_eq.1 hs)
    exact hq p hp x hx
  rw [errors_tokenize, errors_tokenize, Text.bytes_append, e1, e2, Piece.gather_append, Piece.gather_append,
    List.filter_append, List.filter_eq_self.2 hps, List.filter_eq_nil_iff.2 hqs, List.append_nil]
  exact List.prefix_append _ _

/-- The tokens of a script without the end of the script and the two tokens before it are the first tokens of any
longer script.  Every token whose lexeme ends at least two bytes before the end of the script is a token of the longer
one, with the same index and at the same place.  The stray bytes of the script are the first errors of the longer
one. -/
theorem tokenize_append :
    (tokenize a sink).1.toList.dropLast.rdrop 2 <+: (tokenize (a ++ b) sink).1.toList ∧
    (∀ (i : Nat) (t : Token), (tokenize a sink).1.toList.dropLast[i]? = some t →
      ∃ o, (Occurrence.lexemes a)[i]? = some o ∧ o.piece.Reads t ∧
        (o.endOffset + 2 ≤ (Text.bytes a).length →
          (tokenize (a ++ b) sink).1.toList.dropLast[i]? = some t ∧
          ∃ o', (Occurrence.lexemes (a ++ b))[i]? = some o' ∧ o.SamePlace o')) ∧
    (tokenize a ({} : Storage LexicalError)).2.errors.toList.filter (·.cause == .strayByte) <+:
      (tokenize (a ++ b) ({} : Storage LexicalError)).2.errors.toList := by
  rw [TokenStream.dropLast_toList, TokenStream.dropLast_toList]
  refine ⟨?_, ?_, strayBytes_isPrefix a b⟩
  · exact (body_rdrop_isPrefix a b sink).trans (List.prefix_append _ _)
  · intro i t ht
    obtain ⟨hi, -⟩ := List.getElem?_eq_some_iff.1 ht
    have ho := List.getElem?_eq_getElem (l := Occurrence.lexemes a) (i := i) (Occurrence.length_lexemes a sink ▸ hi)
    obtain ⟨t', e, hr, -⟩ := Occurrence.exists_token_of_lexeme a sink ho
    rw [ht, Option.some.injEq] at e
    refine ⟨_, ho, e ▸ hr, fun hle => ⟨?_, Occurrence.lexeme_append ho hle⟩⟩
    rw [token_append a b sink ho hle, ht]

end Append

/-- The brace is kept in front of a digit that makes one number of the two tokens after it. -/
theorem tokenize_append_digit :
    (tokenize "\x7b1." ({} : Storage LexicalError)).1.toList.dropLast[0]? = some ⟨.mark .leftBrace, "\x7b", none, 1⟩ ∧
    ∃ o, (Occurrence.lexemes "\x7b1.")[0]? = some o ∧ o.endOffset + 2 ≤ (Text.bytes "\x7b1.").length ∧
      (tokenize ("\x7b1." ++ "5") ({} : Storage LexicalError)).1.toList.dropLast[0]? =
        some ⟨.mark .leftBrace, "\x7b", none, 1⟩ ∧
      ∃ o', (Occurrence.lexemes ("\x7b1." ++ "5"))[0]? = some o' ∧ o.SamePlace o' := by
  have h0 : (tokenize "\x7b1." ({} : Storage LexicalError)).1.toList.dropLast[0]? =
      some ⟨.mark .leftBrace, "\x7b", none, 1⟩ := by decide +kernel
  have hend : ((Occurrence.lexemes "\x7b1.")[0]?).map Occurrence.endOffset = some 1 := by decide +kernel
  obtain ⟨o, ho, -, hk⟩ := (tokenize_append "\x7b1." "5" ({} : Storage LexicalError)).2.1 0 _ h0
  rw [ho, Option.map_some, Option.some.injEq] at hend
  have hle : o.endOffset + 2 ≤ (Text.bytes "\x7b1.").length := by
    rw [hend]
    decide
  exact ⟨h0, o, ho, hle, hk hle⟩

example : (tokenize ("1." ++ "5") ({} : Storage LexicalError)).1.toList.map Token.lexeme = ["1.5", ""] := by
  decide +kernel

end ScriptLexer
