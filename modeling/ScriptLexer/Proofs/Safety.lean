import ScriptLexer.Proofs.Placement

/-!
# Safety of a scan

A cursor stays in the bytes of its script, passes at least one byte with each piece, and comes to an end from wherever
it is (`Cursor.Safe`).  The slices of the script that are taken for a token begin and end between two characters, and
those taken for numbers are numerals (`Occurrence.Sliced`).  So scanning fails for no script, and it gives no more
tokens and errors than the script has bytes (`tokenize_safe`).
-/

namespace ScriptLexer

/-! ### Cursors -/

namespace Cursor

/-- What holds of a cursor on the bytes of a script. -/
structure Safe (source : String) (c : Cursor) : Prop where
  start_le : c.start ≤ c.current
  current_le : c.current ≤ (Text.bytes source).length
  /-- The cursor has not begun, or it is in a piece of the script. -/
  placed : c.Placed source
  /-- A cursor in a loop comes out of it. -/
  loop_ends : c.loop ≠ none →
    ∃ n line, c.current ≤ n ∧ n ≤ (Text.bytes source).length ∧ Leads (Text.bytes source) c ⟨c.start, n, line, none⟩
  /-- A cursor that rests before the end of the script comes to rest again, at least one byte later. -/
  progress : c.loop = none → c.current < (Text.bytes source).length →
    ∃ n line, c.current < n ∧ n ≤ (Text.bytes source).length ∧ Leads (Text.bytes source) c ⟨c.current, n, line, none⟩
  /-- A cursor stops nowhere but at the end of the script. -/
  halted : step (Text.bytes source) c = none → c.loop = none ∧ c.current = (Text.bytes source).length

theorem Reachable.safe {source : String} {c : Cursor} (h : Reachable (Text.bytes source) c) : c.Safe source := by
  have hb := h.placed.bounds
  have hstop := c.current_le_stop (Text.bytes source)
  have hle : c.current ≤ (Text.bytes source).length := Nat.le_trans hstop hb.2
  refine ⟨hb.1, hle, h.placed, ?_, ?_, ?_⟩
  · intro _
    obtain ⟨line, h⟩ := exists_leads_stop (Text.bytes source) c
    exact ⟨_, line, hstop, hb.2, h⟩
  · intro hl hc
    obtain ⟨b, r, hd⟩ := List.exists_cons_of_length_pos (l := (Text.bytes source).drop c.current)
      (by rw [List.length_drop]; omega)
    have hlen := length_of_drop_eq_cons hd
    rw [List.length_cons] at hlen
    have hpos := Piece.cut_pos b r
    have hcut := Piece.cut_le b r
    obtain ⟨line, h⟩ := exists_leads_cut hl hd
    exact ⟨_, line, by omega, by omega, h⟩
  · intro hs
    rw [step_eq_none_iff] at hs
    exact ⟨hs.1, Nat.le_antisymm hle hs.2⟩

/-- A script is read to its end. -/
private theorem exists_reachable_end (source : String) :
    ∃ c, Reachable (Text.bytes source) c ∧ c.loop = none ∧ c.current = (Text.bytes source).length := by
  obtain ⟨c, hc, hs⟩ := exists_leads_halted (Text.bytes source) initial
  have hr : Reachable (Text.bytes source) c := hc
  exact ⟨c, hr, hr.safe.halted hs⟩

end Cursor

/-! ### Slices -/

namespace Text

/-- The text `t` is that from byte `i` to byte `j` of `s`, and both offsets are between two characters of `s`. -/
def IsSlice (s : String) (i j : Nat) (t : String) : Prop :=
  ∃ p q : s.Pos, p.offset.byteIdx = i ∧ q.offset.byteIdx = j ∧ i ≤ j ∧ s.extract p q = t

private theorem isSlice_append (a t c : String) :
    IsSlice (a ++ t ++ c) (bytes a).length ((bytes a).length + (bytes t).length) t := by
  have hp : (a.rawEndPos).IsValid (a ++ t ++ c) := by
    rw [String.append_assoc]
    exact String.Pos.Raw.isValid_rawEndPos.append_right _
  have hq : ((a ++ t).rawEndPos).IsValid (a ++ t ++ c) := String.Pos.Raw.isValid_rawEndPos.append_right _
  refine ⟨⟨_, hp⟩, ⟨_, hq⟩, rfl, ?_, Nat.le_add_right _ _, ?_⟩
  · exact (String.utf8ByteSize_append : (a ++ t).utf8ByteSize = _)
  · rw [← String.toByteArray_inj, String.toByteArray_extract, String.toByteArray_append, String.toByteArray_append,
      String.byteIdx_rawEndPos, String.byteIdx_rawEndPos, String.utf8ByteSize_append, ← String.size_toByteArray,
      ← String.size_toByteArray, ByteArray.append_assoc]
    have h := ByteArray.extract_append_size_add (a := a.toByteArray) (b := t.toByteArray ++ c.toByteArray) (i := 0)
      (j := t.toByteArray.size)
    rw [Nat.add_zero, ByteArray.extract_append_eq_left rfl] at h
    exact h

end Text

namespace Occurrence

/-- What is taken from the script for the token of a lexeme. -/
structure Sliced (source : String) (o : Occurrence) (t : Token) : Prop where
  lexeme : Text.IsSlice source o.before.length o.endOffset t.lexeme
  /-- The literal of a string is the text without the quotes. -/
  text : t.kind = .string →
    ∃ text, t.literal = some (.text text) ∧ Text.IsSlice source (o.before.length + 1) (o.endOffset - 1) text
  /-- The lexeme of a number is a numeral. -/
  number : t.kind = .number →
    ∃ n, Numeral.ofBytes? (Text.bytes t.lexeme) = some n ∧ t.literal = some (.number n.toBinary64)

/-- The texts before and after a lexeme. -/
private theorem exists_eq_append {source : String} {o : Occurrence} (ho : o ∈ ofSource source) (hl : o.isLexeme)
    {t : Token} (ht : o.piece.Reads t) :
    ∃ pre post, source = pre ++ t.lexeme ++ post ∧ Text.bytes pre = o.before ∧ Text.bytes post = o.after := by
  obtain ⟨e, ha, -⟩ := admits_of_mem ho
  have hv : Text.Valid (o.before ++ o.piece.bytes ++ o.after) := e ▸ Text.valid_bytes source
  obtain ⟨⟨pre, hpre⟩, ⟨post, hpost⟩⟩ := ha.valid_around hl hv
  refine ⟨pre, post, Text.bytes_inj.1 ?_, hpre, hpost⟩
  rw [Text.bytes_append, Text.bytes_append, hpre, hpost, ht.bytes_lexeme, e]

private theorem sliced {source : String} {o : Occurrence} (ho : o ∈ ofSource source) (hl : o.isLexeme) {t : Token}
    (ht : o.piece.Reads t) : o.Sliced source t := by
  obtain ⟨pre, post, rfl, hpre, -⟩ := exists_eq_append ho hl ht
  have hend : o.endOffset = (Text.bytes pre).length + (Text.bytes t.lexeme).length := by
    rw [endOffset, List.length_append, ht.bytes_lexeme, hpre]
  refine ⟨?_, ?_, ?_⟩
  · rw [hend, ← hpre]
    exact Text.isSlice_append pre t.lexeme post
  · intro hk
    generalize hp : o.piece = p at ht
    cases ht with
    | string text line =>
      refine ⟨text, rfl, ?_⟩
      have h := Text.isSlice_append (pre ++ "\"") text ("\"" ++ post)
      have e : pre ++ "\"" ++ text ++ ("\"" ++ post) = pre ++ ("\"" ++ text ++ "\"") ++ post := by
        simp only [String.append_assoc]
      have hquote : (Text.bytes "\"").length = 1 := by decide
      have h1 : (Text.bytes (pre ++ "\"")).length = o.before.length + 1 := by
        rw [Text.bytes_append, List.length_append, hpre, hquote]
      have h2 : o.before.length + 1 + (Text.bytes text).length = o.endOffset - 1 := by
        rw [hend, Piece.bytes_quoted, hpre, List.length_cons, List.length_append, List.length_singleton]
        omega
      rwa [e, h1, h2] at h
    | _ => cases hk
  · intro hk
    generalize hp : o.piece = p at ht
    cases ht with
    | number line hn => exact ⟨_, Numeral.ofBytes?_eq_some_iff.2 hn, rfl⟩
    | _ => cases hk

end Occurrence

/-! ### The number of tokens and errors -/

private theorem Piece.length_ofBytes_le (bs : List UInt8) : (ofBytes bs).length ≤ bs.length := by
  induction bs using inductionOnPieces with
  | nil => simp
  | cons s p rest ha hs ih =>
    have hp : 0 < p.length := List.length_pos_iff.2 ha.ne_nil
    rw [ofBytes_append ha hs, List.length_cons, List.length_append]
    omega

private theorem isLexeme_eq_false_of_isFault {s : Piece.Shape} (h : s.isFault) : s.isLexeme = false := by
  cases s with
  | mark | word | number | string => cases h
  | _ => rfl

/-- No occurrence is a lexeme and a fault. -/
private theorem length_lexemes_add_length_faults_le (source : String) :
    (Occurrence.lexemes source).length + ((Occurrence.ofSource source).filter Occurrence.isFault).length ≤
      (Text.bytes source).length := by
  have hdisj : ∀ o ∈ Occurrence.ofSource source, o.isFault → (fun o => !o.isLexeme) o := by
    intro o _ ho
    have hl : o.isLexeme = false := isLexeme_eq_false_of_isFault ho
    simp [hl]
  have hsum := List.length_eq_countP_add_countP Occurrence.isLexeme (l := Occurrence.ofSource source)
  have hpieces : (Occurrence.ofSource source).length = (Piece.ofBytes (Text.bytes source)).length := by
    rw [← Occurrence.map_piece_listFrom [] (Piece.ofBytes (Text.bytes source)), List.length_map, Occurrence.ofSource]
  calc (Occurrence.lexemes source).length + ((Occurrence.ofSource source).filter Occurrence.isFault).length
      = (Occurrence.ofSource source).countP Occurrence.isLexeme +
          (Occurrence.ofSource source).countP Occurrence.isFault := by
        rw [Occurrence.lexemes, List.countP_eq_length_filter, List.countP_eq_length_filter]
    _ ≤ (Occurrence.ofSource source).countP Occurrence.isLexeme +
          (Occurrence.ofSource source).countP fun o => !o.isLexeme :=
        Nat.add_le_add_left (List.countP_mono_left hdisj) _
    _ = (Piece.ofBytes (Text.bytes source)).length := by
        rw [← hpieces]
        simpa using hsum.symm
    _ ≤ (Text.bytes source).length := Piece.length_ofBytes_le _

/-- No run of a cursor on a script goes on for ever.  Wherever one comes it is safe, it comes to the end of the script,
and it rests at the end of every piece.  What is taken from the script for the tokens is taken between characters, and
the numbers are numerals.  There are no more tokens and errors than bytes. -/
theorem tokenize_safe {σ : Type} [Sink σ LexicalError] (source : String) (sink : σ) :
    (WellFounded fun c' c => Cursor.step (Text.bytes source) c = some c') ∧
    (∀ c, Cursor.Reachable (Text.bytes source) c → c.Safe source) ∧
    (∃ c, Cursor.Reachable (Text.bytes source) c ∧ c.loop = none ∧ c.current = (Text.bytes source).length) ∧
    (∀ o ∈ Occurrence.ofSource source,
      Cursor.Reachable (Text.bytes source) ⟨o.before.length, o.endOffset, o.endLine, none⟩) ∧
    List.Forall₂ (Occurrence.Sliced source) (Occurrence.lexemes source) (tokenize source sink).1.toList.dropLast ∧
    (tokenize source sink).1.toList.dropLast.length +
        (tokenize source ({} : Storage LexicalError)).2.errors.toList.length ≤ (Text.bytes source).length := by
  refine ⟨Cursor.wellFounded_step _, fun c hc => hc.safe, Cursor.exists_reachable_end source, ?_, ?_, ?_⟩
  · intro o ho
    exact Cursor.reachable_endOffset ho
  · rw [TokenStream.dropLast_toList]
    have h := Occurrence.forall₂_tokens source sink
    refine ((List.forall₂_and_left _ _).2 ⟨fun o ho => List.mem_filter.1 ho, h⟩).imp ?_
    intro o t h
    exact Occurrence.sliced h.1.1 h.1.2 h.2.1
  · rw [TokenStream.dropLast_toList, ← Occurrence.length_lexemes, ← (Occurrence.forall₂_errors source).length_eq]
    exact length_lexemes_add_length_faults_le source

/-- A cursor on the second of the two bytes of a character in an open comment. -/
theorem tokenize_safe_open_comment :
    Cursor.Reachable (Text.bytes "/*é") ⟨0, 3, 1, some (.blockComment 0)⟩ ∧
    Cursor.Safe "/*é" ⟨0, 3, 1, some (.blockComment 0)⟩ ∧
    ∃ o ∈ Occurrence.ofSource "/*é",
      Cursor.Reachable (Text.bytes "/*é") ⟨o.before.length, o.endOffset, o.endLine, none⟩ := by
  have h := tokenize_safe "/*é" ({} : Storage LexicalError)
  have h1 : Cursor.step (Text.bytes "/*é") Cursor.initial = some ⟨0, 2, 1, some (.blockComment 0)⟩ := by
    decide +kernel
  have h2 : Cursor.step (Text.bytes "/*é") ⟨0, 2, 1, some (.blockComment 0)⟩ =
      some ⟨0, 3, 1, some (.blockComment 0)⟩ := by
    decide +kernel
  have hr : Cursor.Reachable (Text.bytes "/*é") ⟨0, 3, 1, some (.blockComment 0)⟩ := .tail (.tail .refl h1) h2
  obtain ⟨o, ho, -⟩ := Occurrence.exists_first (show Text.bytes "/*é" ≠ [] by decide)
  exact ⟨hr, h.2.1 _ hr, o, ho, h.2.2.2.1 o ho⟩

end ScriptLexer
