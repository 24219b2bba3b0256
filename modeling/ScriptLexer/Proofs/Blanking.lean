import ScriptLexer.Proofs.Concatenation

/-!
# Comments and faults as blanks

`blankOut` puts a space and the line feeds of the piece in the place of every comment, stray byte, open string and open
comment of a script.  What a piece is followed by then begins like what it was followed by
(`Piece.beginsLike_blankedBytes`), so all other pieces stay as they are (`Piece.ofBytes_blankedBytes`).  The result has
the same token stream and no errors (`tokenize_blankOut`).
-/

namespace ScriptLexer

namespace Piece

def Shape.isComment : Shape → Bool
  | .lineComment | .blockComment => true
  | _ => false

/-- Comments and faults. -/
def Shape.isVoid (s : Shape) : Bool :=
  s.isComment || s.isFault

/-- A space and the line feeds of the piece. -/
def blanks (p : Piece) : List UInt8 :=
  0x20 :: List.replicate p.newlines Byte.newline

/-- The bytes of a piece; for a comment or fault, blanks in their place. -/
def blanked (p : Piece) : List UInt8 :=
  if p.shape.isVoid then p.blanks else p.bytes

/-- The bytes with blanks in the place of comments and faults. -/
def blankedBytes (bs : List UInt8) : List UInt8 :=
  (ofBytes bs).flatMap blanked

@[simp] theorem blankedBytes_nil : blankedBytes [] = [] := by
  simp [blankedBytes]

theorem blankedBytes_append {s : Shape} {p rest : List UInt8} (ha : s.Admits p rest) (hs : s.Stops p rest) :
    blankedBytes (p ++ rest) = blanked ⟨s, p⟩ ++ blankedBytes rest := by
  rw [blankedBytes, ofBytes_append ha hs, List.flatMap_cons]
  rfl

private theorem isBlank_of_mem_blanks {p : Piece} : ∀ b ∈ p.blanks, Byte.isBlank b := by
  intro b hb
  rw [blanks, List.mem_cons] at hb
  rcases hb with rfl | hb
  · decide
  · rw [List.eq_of_mem_replicate hb]
    decide

/-! ### What follows a piece -/

/-- Blanking keeps the first byte, or puts a space in its place. -/
theorem beginsLike_blankedBytes (bs : List UInt8) : Byte.BeginsLike (blankedBytes bs) bs := by
  induction bs using inductionOnPieces with
  | nil => simp [Byte.BeginsLike]
  | cons s p rest ha hs =>
    rw [blankedBytes_append ha hs, blanked]
    split
    · exact Byte.beginsLike_cons_of_isInert (by decide) _ _
    · obtain ⟨b, q, rfl⟩ := List.exists_cons_of_ne_nil ha.ne_nil
      exact Byte.beginsLike_cons b _ _

private theorem bytes_eq_singleton_dot {m : Mark} {q : List UInt8} (h : m.bytes = Byte.dot :: q) : q = [] := by
  have table : ∀ m : Mark, m.bytes.head? = some Byte.dot → m.bytes.tail = [] := by
    intro m
    cases m <;> decide
  have ht := table m (by rw [h, List.head?_cons])
  rwa [h, List.tail_cons] at ht

/-- A point that begins a piece is all of it. -/
private theorem Shape.Admits.eq_nil_of_dot {s : Shape} {q rest : List UInt8} (h : s.Admits (Byte.dot :: q) rest) :
    q = [] := by
  rcases h with h | ⟨b, -, e, -⟩
  · generalize e : Byte.dot :: q = p at h
    cases h with
    | mark m => exact bytes_eq_singleton_dot e.symm
    | number hn =>
      obtain ⟨d, r, rfl, hd⟩ := hn.exists_cons
      rw [List.cons.injEq] at e
      rw [← e.1] at hd
      exact absurd hd (by decide)
    | blockComment hc =>
      obtain ⟨r, rfl⟩ := hc.exists_cons
      exact absurd (List.cons.inj e).1 (by decide)
    | word hb _ | blank hb =>
      rw [List.cons.injEq] at e
      rw [← e.1] at hb
      exact absurd hb (by decide)
    | string | lineComment | openString | openComment => exact absurd (List.cons.inj e).1 (by decide)
  · exact (List.cons.inj e).2

/-- A point that begins the blanked bytes was one before, and what follows it begins like what followed it then. -/
private theorem beginsLike_of_blankedBytes_eq {bs r' : List UInt8} (e : blankedBytes bs = Byte.dot :: r') :
    ∃ r, bs = Byte.dot :: r ∧ Byte.BeginsLike r' r := by
  induction bs using inductionOnPieces with
  | nil => simp at e
  | cons s p rest ha hs =>
    rw [blankedBytes_append ha hs, blanked] at e
    split at e
    · exact absurd (List.cons.inj e).1 (by decide)
    · obtain ⟨b, q, rfl⟩ := List.exists_cons_of_ne_nil ha.ne_nil
      rw [List.cons_append, List.cons.injEq] at e
      obtain ⟨rfl, rfl⟩ := e
      obtain rfl := ha.eq_nil_of_dot
      exact ⟨rest, rfl, beginsLike_blankedBytes rest⟩

theorem Shape.Stops.blankedBytes {s : Shape} {p rest : List UInt8} (h : s.Stops p rest) (hs : s.isVoid = false) :
    s.Stops p (blankedBytes rest) := by
  refine h.of_beginsLike (beginsLike_blankedBytes rest) (fun _ => beginsLike_of_blankedBytes_eq) ?_
  rintro rfl
  cases hs

/-! ### The pieces of blanked bytes -/

/-- The pieces of the blanked bytes of a piece. -/
def blankedPieces (p : Piece) : List Piece :=
  if p.shape.isVoid then p.blanks.map fun b => ⟨.blank, [b]⟩ else [p]

theorem ofBytes_blankedBytes (bs : List UInt8) : ofBytes (blankedBytes bs) = (ofBytes bs).flatMap blankedPieces := by
  induction bs using inductionOnPieces with
  | nil => simp
  | cons s p rest ha hs ih =>
    rw [blankedBytes_append ha hs, ofBytes_append ha hs, List.flatMap_cons, ← ih, blanked, blankedPieces]
    cases hv : s.isVoid with
    | true => exact ofBytes_blanks_append isBlank_of_mem_blanks _
    | false =>
      have ho : s.isOpen = false := by
        rw [Shape.isVoid, Bool.or_eq_false_iff] at hv
        exact Shape.isOpen_eq_false hv.2
      exact ofBytes_append (ha.of_closed ho _) (hs.blankedBytes hv)

private theorem newlinesIn_blankedPieces (p : Piece) : newlinesIn p.blankedPieces = p.newlines := by
  rw [blankedPieces]
  split
  · rw [← ofBytes_blanks isBlank_of_mem_blanks, newlinesIn_ofBytes, blanks, List.count_cons_of_ne (by decide),
      List.count_replicate_self]
  · rw [newlinesIn_cons, newlinesIn_nil, Nat.add_zero]

private theorem isFault_of_mem_blankedPieces {p : Piece} : ∀ q ∈ p.blankedPieces, q.shape.isFault = false := by
  intro q hq
  rw [blankedPieces] at hq
  split at hq
  · obtain ⟨b, -, rfl⟩ := List.mem_map.1 hq
    rfl
  · next h =>
    rw [Bool.not_eq_true, Shape.isVoid, Bool.or_eq_false_iff] at h
    rw [List.mem_singleton.1 hq]
    exact h.2

private theorem isLexeme_eq_false_of_isVoid {s : Shape} (h : s.isVoid) : s.isLexeme = false := by
  cases s with
  | mark | word | number | string => cases h
  | _ => rfl

private theorem gather_token?_blankedPieces (line : Nat) (p : Piece) :
    gather token? line p.blankedPieces = (p.token? (line + p.newlines)).toList := by
  rw [blankedPieces]
  split
  · next h =>
    rw [token?_eq_none (isLexeme_eq_false_of_isVoid h)]
    apply gather_eq_nil
    intro q hq line
    obtain ⟨b, -, rfl⟩ := List.mem_map.1 hq
    rfl
  · rw [gather, gather, List.append_nil]

private theorem gather_token?_flatMap_blankedPieces (line : Nat) (ps : List Piece) :
    gather token? line (ps.flatMap blankedPieces) = gather token? line ps := by
  induction ps generalizing line with
  | nil => rfl
  | cons p ps ih =>
    rw [List.flatMap_cons, gather_append, gather_token?_blankedPieces, newlinesIn_blankedPieces, ih, gather]

private theorem newlinesIn_flatMap_blankedPieces (ps : List Piece) :
    newlinesIn (ps.flatMap blankedPieces) = newlinesIn ps := by
  induction ps with
  | nil => rfl
  | cons p ps ih => rw [List.flatMap_cons, newlinesIn_append, newlinesIn_blankedPieces, newlinesIn_cons, ih]

end Piece

/-! ### Blanked scripts -/

/-- The script with a space and the line feeds of the piece in the place of every comment, stray byte, open string and
open comment. -/
def blankOut (source : String) : Option String :=
  Text.ofBytes? (Piece.blankedBytes (Text.bytes source))

private theorem valid_flatten {bss : List (List UInt8)} (h : ∀ bs ∈ bss, Text.Valid bs) : Text.Valid bss.flatten := by
  induction bss with
  | nil => exact ⟨"", rfl⟩
  | cons bs bss ih =>
    rw [List.forall_mem_cons] at h
    exact h.1.append (ih h.2)

private theorem valid_of_isBlank {bs : List UInt8} (h : ∀ b ∈ bs, Byte.isBlank b) : Text.Valid bs :=
  Text.valid_of_ascii fun b hb => Piece.isBlank_lt (h b hb)

private theorem isBlank_of_admits {s : Piece.Shape} {p rest : List UInt8} (h : s.Admits p rest)
    (hv : s.isVoid = false) (hl : s.isLexeme = false) : ∀ b ∈ p, Byte.isBlank b := by
  rcases h with h | ⟨b, rfl, -, -⟩
  · cases h with
    | blank hb => exact List.forall_mem_singleton.2 hb
    | mark | word | number | string => cases hl
    | lineComment | blockComment | openString | openComment => cases hv
  · cases hv

/-- A comment or fault becomes blanks, a lexeme is the text of its token, and all else is a blank byte. -/
private theorem valid_blanked {source : String} {o : Occurrence} (ho : o ∈ Occurrence.ofSource source) :
    Text.Valid o.piece.blanked := by
  obtain ⟨e, ha, -⟩ := Occurrence.admits_of_mem ho
  rw [Piece.blanked]
  split
  · exact valid_of_isBlank Piece.isBlank_of_mem_blanks
  · next hv =>
    rw [Bool.not_eq_true] at hv
    cases hl : o.piece.shape.isLexeme with
    | true =>
      obtain ⟨t, ht, -⟩ := Piece.exists_reads ha hl (e ▸ Text.valid_bytes source) 0
      exact ⟨t.lexeme, ht.bytes_lexeme⟩
    | false => exact valid_of_isBlank (isBlank_of_admits ha hv hl)

private theorem valid_blankedBytes (source : String) : Text.Valid (Piece.blankedBytes (Text.bytes source)) := by
  have e := Occurrence.map_piece_listFrom [] (Piece.ofBytes (Text.bytes source))
  rw [Piece.blankedBytes, ← e, List.flatMap_def, List.map_map]
  apply valid_flatten
  intro bs hbs
  obtain ⟨o, ho, rfl⟩ := List.mem_map.1 hbs
  exact valid_blanked ho

/-- A script and the script with blanks in the place of its comments and faults have the same tokens, on the same
lines, and the latter has no errors. -/
theorem tokenize_blankOut {σ : Type} [Sink σ LexicalError] (source : String) (sink : σ) :
    ∃ source', blankOut source = some source' ∧ (tokenize source' sink).1 = (tokenize source sink).1 ∧
      (tokenize source' ({} : Storage LexicalError)).2.errors.toList = [] := by
  obtain ⟨source', h⟩ := valid_blankedBytes source
  have hp := Piece.ofBytes_blankedBytes (Text.bytes source)
  rw [← h] at hp
  refine ⟨source', Text.ofBytes?_eq_some_iff.2 h, ?_, ?_⟩
  · have hbody : (tokenize source' sink).1.body.toList = (tokenize source sink).1.body.toList := by
      rw [body_tokenize, body_tokenize, hp, Piece.gather_token?_flatMap_blankedPieces]
    have hline : (tokenize source' sink).1.endLine = (tokenize source sink).1.endLine := by
      rw [endLine_tokenize, endLine_tokenize, ← Piece.newlinesIn_ofBytes, hp,
        Piece.newlinesIn_flatMap_blankedPieces, Piece.newlinesIn_ofBytes]
    exact TokenStream.eq_of_body_eq hbody hline
  · rw [errors_tokenize, hp]
    apply Piece.gather_eq_nil
    intro q hq line
    obtain ⟨p, -, hq⟩ := List.mem_flatMap.1 hq
    exact Piece.error?_eq_none (Piece.isFault_of_mem_blankedPieces q hq) line

example : blankOut "a/*\n*/b€//c" = some "a \nb    " := by
  decide +kernel

end ScriptLexer
