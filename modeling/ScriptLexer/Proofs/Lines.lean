import ScriptLexer.Proofs.Placement

/-!
# Lines

Wherever a cursor comes it is on the line that the line feeds before it amount to, and after any of its steps a scan is
on the line of the cursor that has read the same bytes (`Cursor.exists_reachable_after`).  A token is on the line of
the cursor at the end of its lexeme, which is that on which the lexeme begins for all but strings; the errors and the
last token are placed likewise, and in each list the lines do not decrease (`tokenize_lines`).
-/

namespace ScriptLexer

/-! ### Pieces without a line feed -/

namespace Piece

private theorem newline_ne_of_isWordByte {b : UInt8} (h : Byte.isWordByte b) : Byte.newline ≠ b := by
  rintro rfl
  exact absurd h (by decide)

theorem newline_notMem_of_spelled {n : Numeral} {p : List UInt8} (h : n.Spelled p) : Byte.newline ∉ p := by
  intro hp
  rcases h.isDigit_or_eq_dot _ hp with hd | hd
  · exact absurd hd (by decide)
  · exact absurd hd (by decide)

/-- Among the lexemes only strings contain line feeds. -/
theorem Shape.Admits.newline_notMem {s : Shape} {p rest : List UInt8} (h : s.Admits p rest) (hl : s.isLexeme)
    (hs : s ≠ .string) : Byte.newline ∉ p := by
  rcases h with h | ⟨b, rfl, -, -⟩
  · cases h with
    | mark m => exact m.newline_notMem_bytes
    | word hb hw => exact fun hp => newline_ne_of_isWordByte (isWordByte_of_mem hb hw _ hp) rfl
    | number hn => exact newline_notMem_of_spelled hn
    | string _ => exact absurd rfl hs
    | _ => cases hl
  · cases hl

private theorem Shape.Admits.stray_ne_newline {b : UInt8} {p rest : List UInt8} (h : (Shape.stray b).Admits p rest) :
    p = [b] ∧ b ≠ Byte.newline := by
  rcases h with h | ⟨c, e, rfl, h⟩
  · cases h
  · cases e
    refine ⟨rfl, ?_⟩
    rintro rfl
    exact h .blank [] [] (.blank (by decide))

private theorem Reads.shape_ne_string {p : Piece} {t : Token} (h : p.Reads t) (ht : t.kind ≠ .string) :
    p.shape ≠ .string := by
  cases h with
  | string => exact absurd rfl ht
  | _ => exact Shape.noConfusion

end Piece

/-! ### Places in a script -/

namespace Occurrence

/-- The token is the one of the occurrence, and it is on the line on which its lexeme ends. -/
def PlacesToken (source : String) (o : Occurrence) (t : Token) : Prop :=
  o.before ++ Text.bytes t.lexeme ++ o.after = Text.bytes source ∧
    t.line = 1 + (o.before ++ Text.bytes t.lexeme).count Byte.newline ∧
    (t.kind ≠ .string → t.line = 1 + o.before.count Byte.newline)

/-- The error is on the line of its byte, or on the last line if the script ends inside a string or comment. -/
def PlacesError (source : String) (o : Occurrence) : LexicalError → Prop
  | .strayByte line b => o.before ++ b :: o.after = Text.bytes source ∧ line = 1 + o.before.count Byte.newline
  | .openString line => line = 1 + (Text.bytes source).count Byte.newline
  | .openComment line => line = 1 + (Text.bytes source).count Byte.newline

private theorem endLine_of_notMem {o : Occurrence} (h : Byte.newline ∉ o.piece.bytes) :
    o.endLine = 1 + o.before.count Byte.newline := by
  rw [endLine, List.count_append, List.count_eq_zero_of_not_mem h, Nat.add_zero]

private theorem placesToken {source : String} {o : Occurrence} {t : Token} (ho : o ∈ ofSource source)
    (hl : o.isLexeme) (ht : o.piece.Reads t) (e : t.line = o.endLine) : o.PlacesToken source t := by
  obtain ⟨hsrc, ha, -⟩ := admits_of_mem ho
  unfold PlacesToken
  rw [ht.bytes_lexeme]
  refine ⟨hsrc, e, ?_⟩
  -- a lexeme without a line feed ends on the line on which it begins
  intro hk
  rw [e]
  exact endLine_of_notMem (ha.newline_notMem hl (ht.shape_ne_string hk))

private theorem placesError {source : String} {o : Occurrence} {e : LexicalError} (ho : o ∈ ofSource source)
    (he : o.piece.Faults e) (hl : e.line = o.endLine) : o.PlacesError source e := by
  obtain ⟨hsrc, ha, -⟩ := admits_of_mem ho
  obtain ⟨before, p, after⟩ := o
  cases he with
  | stray b line =>
    have hb : Byte.newline ∉ [b] := by simpa using ha.stray_ne_newline.2.symm
    have hline : line = _ := hl.trans (endLine_of_notMem hb)
    refine ⟨?_, hline⟩
    rw [← hsrc]
    simp
  | openString bs line | openComment bs line =>
    -- nothing follows an open string or comment, so it ends where the script ends
    have hafter : after = [] := by
      rcases ha with h | ⟨b, hs, -, -⟩
      · cases h
        rfl
      · cases hs
    have hend : line = 1 + (before ++ bs).count Byte.newline := hl
    rw [hafter, List.append_nil] at hsrc
    rw [PlacesError, hend, ← hsrc]

private theorem le_endLine_of_mem {before : List UInt8} {ps : List Piece} {o : Occurrence}
    (h : o ∈ listFrom before ps) : 1 + before.count Byte.newline ≤ o.endLine := by
  induction ps generalizing before with
  | nil => simp [listFrom] at h
  | cons p ps ih =>
    rw [listFrom, List.mem_cons] at h
    rcases h with rfl | h
    · simp only [endLine, List.count_append]
      omega
    · have hle := ih h
      rw [List.count_append] at hle
      omega

private theorem pairwise_endLine (before : List UInt8) (ps : List Piece) :
    (listFrom before ps).Pairwise fun o o' => o.endLine ≤ o'.endLine := by
  induction ps generalizing before with
  | nil => exact .nil
  | cons p ps ih => exact .cons (fun o ho => le_endLine_of_mem ho) (ih _)

private theorem endLine_le {source : String} {o : Occurrence} (h : o ∈ ofSource source) :
    o.endLine ≤ 1 + (Text.bytes source).count Byte.newline := by
  obtain ⟨e, -, -⟩ := admits_of_mem h
  simp only [← e, endLine, List.count_append]
  omega

end Occurrence

/-! ### Lines of tokens and errors -/

private theorem map_line_eq {α : Type} {line : α → Nat} {os : List Occurrence} {xs : List α}
    (h : List.Forall₂ (fun o x => line x = o.endLine) os xs) : xs.map line = os.map Occurrence.endLine := by
  induction h with
  | nil => rfl
  | cons hx _ ih => rw [List.map_cons, List.map_cons, hx, ih]

private theorem pairwise_map_endLine (source : String) (f : Occurrence → Bool) :
    (((Occurrence.ofSource source).filter f).map Occurrence.endLine).Pairwise (· ≤ ·) := by
  rw [List.pairwise_map]
  exact (Occurrence.pairwise_endLine [] _).filter f

private theorem map_line_toList {σ : Type} [Sink σ LexicalError] (source : String) (sink : σ) :
    (tokenize source sink).1.toList.map Token.line =
      ((Occurrence.ofSource source).filter Occurrence.isLexeme).map Occurrence.endLine ++
        [1 + (Text.bytes source).count Byte.newline] := by
  have h := (Occurrence.forall₂_tokens source sink).imp fun _ _ h => h.2
  rw [TokenStream.toList, List.map_append, map_line_eq h, TokenStream.last, endLine_tokenize]
  rfl

/-! ### A scan and a cursor -/

/-- The pieces that a scan of the script has read after some steps. -/
def Piece.readIn (source : String) (steps : Nat) : List Piece :=
  (Piece.ofBytes (Text.bytes source)).take steps

/-- The bytes that a scan of the script has read after some steps. -/
def Piece.bytesRead (source : String) (steps : Nat) : List UInt8 :=
  ((readIn source steps).map bytes).flatten

/-- The scan of a script after some steps. -/
def Scan.after (source : String) (steps : Nat) : Scan :=
  (Piece.readIn source steps).foldl step {}

private theorem Piece.prefix_bytesRead (source : String) (steps : Nat) :
    bytesRead source steps <+: Text.bytes source := by
  refine ⟨(((Piece.ofBytes (Text.bytes source)).drop steps).map Piece.bytes).flatten, ?_⟩
  rw [bytesRead, ← List.flatten_append, ← List.map_append, Piece.readIn, List.take_append_drop, Piece.flatten_ofBytes]

private theorem Scan.line_after (source : String) (steps : Nat) :
    (after source steps).line = 1 + (Piece.bytesRead source steps).count Byte.newline := by
  rw [after, foldl_step]
  rfl

/-- After some steps of a scan a cursor rests where the scan has come to, on the line of the scan. -/
theorem Cursor.exists_reachable_after (source : String) (steps : Nat) :
    ∃ start, Reachable (Text.bytes source)
      ⟨start, (Piece.bytesRead source steps).length, (Scan.after source steps).line, none⟩ := by
  obtain ⟨start, line, hr⟩ : ∃ start line, Reachable (Text.bytes source)
      ⟨start, (Piece.bytesRead source steps).length, line, none⟩ :=
    exists_leads_take (List.nil_append _) rfl rfl steps
  have hline : line = 1 + ((Text.bytes source).take (Piece.bytesRead source steps).length).count Byte.newline :=
    hr.line_eq
  rw [← List.prefix_iff_eq_take.1 (Piece.prefix_bytesRead source steps), ← Scan.line_after] at hline
  rw [hline] at hr
  exact ⟨start, hr⟩

/-- Wherever a cursor comes on a script, also in a string or a comment, its line is one more than the line feeds before
it, and after any of its steps a scan is on the line of a cursor.  Every token and every error is on the line of the
cursor at the end of its piece, which is that of its place in the script, and in each list the lines do not
decrease. -/
theorem tokenize_lines {σ : Type} [Sink σ LexicalError] (source : String) (sink : σ) :
    (∀ c, Cursor.Reachable (Text.bytes source) c →
      c.line = 1 + ((Text.bytes source).take c.current).count Byte.newline) ∧
    (∀ steps : Nat, Piece.bytesRead source steps <+: Text.bytes source ∧
      (Scan.after source steps).line = 1 + (Piece.bytesRead source steps).count Byte.newline ∧
      ∃ start, Cursor.Reachable (Text.bytes source)
        ⟨start, (Piece.bytesRead source steps).length, (Scan.after source steps).line, none⟩) ∧
    List.Forall₂ (fun o t => o.PlacesToken source t ∧
        Cursor.Reachable (Text.bytes source) ⟨o.before.length, o.endOffset, t.line, none⟩)
      ((Occurrence.ofSource source).filter Occurrence.isLexeme) (tokenize source sink).1.toList.dropLast ∧
    List.Forall₂ (fun o e => o.PlacesError source e ∧
        Cursor.Reachable (Text.bytes source) ⟨o.before.length, o.endOffset, e.line, none⟩)
      ((Occurrence.ofSource source).filter Occurrence.isFault)
      (tokenize source ({} : Storage LexicalError)).2.errors.toList ∧
    (tokenize source sink).1.last = .eof (1 + (Text.bytes source).count Byte.newline) ∧
    (∃ c, Cursor.Reachable (Text.bytes source) c ∧ Cursor.step (Text.bytes source) c = none ∧
      (tokenize source sink).1.last = .eof c.line) ∧
    ((tokenize source sink).1.toList.map Token.line).Pairwise (· ≤ ·) ∧
    ((tokenize source ({} : Storage LexicalError)).2.errors.toList.map LexicalError.line).Pairwise (· ≤ ·) := by
  have hlast : (tokenize source sink).1.last = .eof (1 + (Text.bytes source).count Byte.newline) := by
    rw [TokenStream.last, endLine_tokenize]
  refine ⟨fun c hc => hc.line_eq, ?_, ?_, ?_, hlast, ?_, ?_, ?_⟩
  · intro steps
    exact ⟨Piece.prefix_bytesRead source steps, Scan.line_after source steps,
      Cursor.exists_reachable_after source steps⟩
  · rw [TokenStream.dropLast_toList]
    have h := Occurrence.forall₂_tokens source sink
    refine ((List.forall₂_and_left _ _).2 ⟨fun o ho => List.mem_filter.1 ho, h⟩).imp ?_
    rintro o t ⟨⟨ho, hl⟩, ht, e⟩
    exact ⟨Occurrence.placesToken ho hl ht e, e ▸ Cursor.reachable_endOffset ho⟩
  · have h := Occurrence.forall₂_errors source
    refine ((List.forall₂_and_left _ _).2 ⟨fun o ho => (List.mem_filter.1 ho).1, h⟩).imp ?_
    rintro o e ⟨ho, he, hl⟩
    exact ⟨Occurrence.placesError ho he hl, hl ▸ Cursor.reachable_endOffset ho⟩
  · obtain ⟨c, hc, hs⟩ := Cursor.exists_leads_halted (Text.bytes source) Cursor.initial
    have hr : Cursor.Reachable (Text.bytes source) c := hc
    have hend := Cursor.step_eq_none_iff.1 hs
    refine ⟨c, hr, hs, ?_⟩
    rw [hlast, hr.line_eq, List.take_of_length_le hend.2]
  · rw [map_line_toList, List.pairwise_append]
    refine ⟨pairwise_map_endLine source _, List.pairwise_singleton _ _, ?_⟩
    intro n hn m hm
    obtain ⟨o, ho, rfl⟩ := List.mem_map.1 hn
    rw [List.mem_singleton.1 hm]
    exact Occurrence.endLine_le (List.mem_filter.1 ho).1
  · rw [map_line_eq ((Occurrence.forall₂_errors source).imp fun _ _ h => h.2)]
    exact pairwise_map_endLine source _

/-- A cursor after the line feed in a comment inside a comment. -/
theorem tokenize_lines_nested_comment :
    Cursor.Reachable (Text.bytes "/*/*\n*/") ⟨0, 5, 2, some (.blockComment 1)⟩ ∧
    2 = 1 + ((Text.bytes "/*/*\n*/").take 5).count Byte.newline := by
  have h1 : Cursor.step (Text.bytes "/*/*\n*/") Cursor.initial = some ⟨0, 2, 1, some (.blockComment 0)⟩ := by
    decide +kernel
  have h2 : Cursor.step (Text.bytes "/*/*\n*/") ⟨0, 2, 1, some (.blockComment 0)⟩ =
      some ⟨0, 4, 1, some (.blockComment 1)⟩ := by
    decide +kernel
  have h3 : Cursor.step (Text.bytes "/*/*\n*/") ⟨0, 4, 1, some (.blockComment 1)⟩ =
      some ⟨0, 5, 2, some (.blockComment 1)⟩ := by
    decide +kernel
  have hr : Cursor.Reachable (Text.bytes "/*/*\n*/") ⟨0, 5, 2, some (.blockComment 1)⟩ :=
    .tail (.tail (.tail .refl h1) h2) h3
  exact ⟨hr, (tokenize_lines "/*/*\n*/" ({} : Storage LexicalError)).1 _ hr⟩

end ScriptLexer
