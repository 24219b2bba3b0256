import ScriptLexer.Proofs.Lines
import ScriptLexer.Proofs.PrefixStability

/-!
# Scanning a block comment

A scan that has read some pieces of a script cuts the rest as it would cut a script (`Piece.drop_ofBytes`), so at any
of its steps it reads what begins the rest (`Piece.readIn_succ`).  Where the rest begins with `/*` this is the one
closed comment that begins it, which leaves no token and no error (`Scan.after_closed`), or all of the rest if no closed
comment does (`tokenize_open`, `tokenize_comments`).
-/

namespace ScriptLexer

namespace Piece

/-! ### Closed comments -/

/-- The depth counter stops at the end of a closed comment. -/
private theorem commentLength?_eq_length_iff {p rest r : List UInt8} (h : p ++ rest = Byte.slash :: Byte.star :: r) :
    commentLength? 0 2 r = some p.length ↔ IsComment p := by
  constructor
  · intro hk
    have hp := isComment_take hk
    rwa [← h, List.take_left] at hp
  · intro hp
    obtain ⟨q, rfl⟩ := hp.exists_cons
    simp only [List.cons_append, List.cons.injEq, true_and] at h
    rw [← h, commentLength?_of_isComment hp, List.length_cons, List.length_cons]

private theorem IsComment.eq_of_prefix {p q bs : List UInt8} (hp : IsComment p) (hq : IsComment q) (h : p <+: bs)
    (h' : q <+: bs) : p = q := by
  obtain ⟨rest, h⟩ := h
  obtain ⟨rest', h'⟩ := h'
  obtain ⟨r, e⟩ : ∃ r, bs = Byte.slash :: Byte.star :: r := by
    obtain ⟨t, rfl⟩ := hp.exists_cons
    exact ⟨t ++ rest, h.symm⟩
  have hl := (commentLength?_eq_length_iff (h.trans e)).2 hp
  rw [(commentLength?_eq_length_iff (h'.trans e)).2 hq, Option.some.injEq] at hl
  exact (List.append_inj (h.trans h'.symm) hl.symm).1

private theorem IsComment.four_le_length {p : List UInt8} (h : IsComment p) : 4 ≤ p.length := by
  obtain ⟨w, -, rfl⟩ := h
  simp

/-- The second delimiter of `/*/*/` opens a comment inside the first one. -/
private theorem IsComment.exists_of_open_open {w : List UInt8}
    (h : IsComment (Byte.slash :: Byte.star :: Byte.slash :: Byte.star :: w)) :
    ∃ u v, CommentBody u ∧ CommentBody v ∧ w = u ++ Byte.star :: Byte.slash :: (v ++ [Byte.star, Byte.slash]) := by
  obtain ⟨body, hb, e⟩ := h
  simp only [List.cons.injEq, true_and] at e
  cases hb with
  | nil =>
    rw [List.nil_append, List.cons.injEq] at e
    exact absurd e.1 (by decide)
  | @nested u v hu hv =>
    simp only [List.cons_append, List.append_assoc, List.cons.injEq, true_and] at e
    exact ⟨u, v, hu, hv, e⟩
  | @byte a body ha _ =>
    -- the byte after the slash is a star, also at the end of the body
    rw [List.cons_append, List.cons.injEq] at e
    obtain ⟨rfl, e⟩ := e
    refine absurd (Or.inl ⟨rfl, ?_⟩) ha
    cases body with
    | nil => rfl
    | cons b body =>
      rw [List.cons_append, List.cons.injEq] at e
      exact e.1.symm

/-! ### Steps of a scan -/

/-- After some pieces the rest is cut as if it were all. -/
theorem drop_ofBytes (bs : List UInt8) (n : Nat) :
    (ofBytes bs).drop n = ofBytes (((ofBytes bs).drop n).map bytes).flatten := by
  induction bs using inductionOnPieces generalizing n with
  | nil => simp
  | cons s p rest ha hs ih =>
    cases n with
    | zero => rw [List.drop_zero, flatten_ofBytes]
    | succ n =>
      rw [ofBytes_append ha hs, List.drop_succ_cons]
      exact ih n

/-- Only the last piece of a script can be open. -/
private theorem isOpen_eq_false_of_mem_take {bs : List UInt8} {n : Nat} (h : (ofBytes bs).drop n ≠ []) :
    ∀ p ∈ (ofBytes bs).take n, p.shape.isOpen = false := by
  induction bs using inductionOnPieces generalizing n with
  | nil => simp
  | cons s p rest ha hs ih =>
    cases n with
    | zero => simp
    | succ n =>
      rw [ofBytes_append ha hs, List.drop_succ_cons] at h
      have hne : rest ≠ [] := by
        rintro rfl
        exact h (by simp)
      rw [ofBytes_append ha hs, List.take_succ_cons, List.forall_mem_cons]
      exact ⟨ha.isOpen_eq_false hne, ih h⟩

section Steps

variable {source : String} {steps : Nat} {rest : List UInt8}

private theorem drop_eq_of_bytesRead (h : bytesRead source steps ++ rest = Text.bytes source) :
    (ofBytes (Text.bytes source)).drop steps = ofBytes rest := by
  have e : bytesRead source steps ++ (((ofBytes (Text.bytes source)).drop steps).map bytes).flatten =
      Text.bytes source := by
    rw [bytesRead, readIn, ← List.flatten_append, ← List.map_append, List.take_append_drop, flatten_ofBytes]
  rw [drop_ofBytes, List.append_cancel_left (e.trans h.symm)]

/-- The next step of a scan reads the piece that begins the rest. -/
theorem readIn_succ {s : Shape} {p : List UInt8} (ha : s.Admits p rest) (hs : s.Stops p rest)
    (h : bytesRead source steps ++ (p ++ rest) = Text.bytes source) :
    readIn source (steps + 1) = readIn source steps ++ [⟨s, p⟩] := by
  rw [readIn, List.take_add, drop_eq_of_bytesRead h, ofBytes_append ha hs]
  rfl

private theorem bytesRead_succ {s : Shape} {p : List UInt8} (ha : s.Admits p rest) (hs : s.Stops p rest)
    (h : bytesRead source steps ++ (p ++ rest) = Text.bytes source) :
    bytesRead source (steps + 1) = bytesRead source steps ++ p := by
  rw [bytesRead, readIn_succ ha hs h, List.map_append, List.flatten_append, ← bytesRead]
  simp

end Steps

end Piece

namespace Scan

private theorem after_eq (source : String) (steps : Nat) :
    after source steps = ⟨1 + (Piece.bytesRead source steps).count Byte.newline,
      (Piece.gather Piece.token? 1 (Piece.readIn source steps)).toArray,
      (Piece.gather Piece.error? 1 (Piece.readIn source steps)).toArray⟩ := by
  rw [after, foldl_step]
  simp [Piece.newlinesIn, Piece.bytesRead]

end Scan

/-! ### Comments in a script -/

section Comments

variable {source : String} {steps : Nat} {r : List UInt8}

/-- A closed comment leaves nothing but its lines. -/
theorem Scan.after_closed {p rest : List UInt8} (hp : Piece.IsComment p)
    (h : Piece.bytesRead source steps ++ (p ++ rest) = Text.bytes source) :
    after source (steps + 1) =
      { after source steps with line := (after source steps).line + p.count Byte.newline } := by
  rw [after, Piece.readIn_succ (Or.inl (.blockComment hp)) trivial h, List.foldl_concat]
  rfl

private theorem pieces_of_open (hr : ∀ p, p <+: Byte.slash :: Byte.star :: r → ¬ Piece.IsComment p)
    (h : Piece.bytesRead source steps ++ Byte.slash :: Byte.star :: r = Text.bytes source) :
    Piece.ofBytes (Text.bytes source) =
      Piece.readIn source steps ++ [⟨.openComment, Byte.slash :: Byte.star :: r⟩] := by
  rw [← List.take_append_drop steps (Piece.ofBytes _), Piece.drop_eq_of_bytesRead h,
    Piece.ofBytes_single (Or.inl (.openComment hr))]
  rfl

private theorem strayByte_of_mem_errors {rest : List UInt8} (hne : rest ≠ [])
    (h : Piece.bytesRead source steps ++ rest = Text.bytes source) {e : LexicalError}
    (he : e ∈ (Scan.after source steps).errors) : e.cause = .strayByte := by
  have hdrop : (Piece.ofBytes (Text.bytes source)).drop steps ≠ [] := by
    rw [Piece.drop_eq_of_bytesRead h]
    intro hnil
    have hflat := Piece.flatten_ofBytes rest
    rw [hnil] at hflat
    exact hne hflat.symm
  rw [Scan.after_eq, List.mem_toArray] at he
  obtain ⟨p, hp, line, hpe⟩ := Piece.exists_of_mem_gather he
  exact Piece.cause_of_isOpen_eq_false (Piece.isOpen_eq_false_of_mem_take hdrop p hp) hpe

/-- A comment that is not closed takes the rest of the script and is its last error. -/
theorem tokenize_open {σ : Type} [Sink σ LexicalError] (sink : σ)
    (hr : ∀ p, p <+: Byte.slash :: Byte.star :: r → ¬ Piece.IsComment p)
    (h : Piece.bytesRead source steps ++ Byte.slash :: Byte.star :: r = Text.bytes source) :
    (tokenize source sink).1.body.toList = (Scan.after source steps).tokens.toList ∧
      (tokenize source ({} : Storage LexicalError)).2.errors.toList =
        (Scan.after source steps).errors.toList ++ [.openComment (1 + (Text.bytes source).count Byte.newline)] := by
  have hline : 1 + Piece.newlinesIn (Piece.readIn source steps) +
      Piece.newlines ⟨.openComment, Byte.slash :: Byte.star :: r⟩ = 1 + (Text.bytes source).count Byte.newline := by
    rw [← h, List.count_append, ← Nat.add_assoc]
    rfl
  rw [body_tokenize, errors_tokenize, pieces_of_open hr h, Piece.gather_append, Piece.gather_append, Scan.after_eq]
  constructor
  · exact List.append_nil _
  · rw [Piece.gather, Piece.gather, hline]
    rfl

end Comments

/-- The depth counter stops exactly at the ends of the closed comments, of which a delimiter takes both of its bytes.
Where a scan stands in front of `/*`, it reads the only closed comment that begins the rest, from which it keeps no
token and no error, or all of the rest if there is none.  Then the comment is the last error after some stray bytes,
and no token follows but the last. -/
theorem tokenize_comments {σ : Type} [Sink σ LexicalError] (source : String) (sink : σ) :
    (∀ p rest r, p ++ rest = Byte.slash :: Byte.star :: r →
      (Piece.commentLength? 0 2 r = some p.length ↔ Piece.IsComment p)) ∧
    ¬ Piece.IsComment (Text.bytes "/*/") ∧ Piece.IsComment (Text.bytes "/**/") ∧
    (∀ w, Piece.IsComment (Text.bytes "/*/*/" ++ w) → ∃ u v, Piece.CommentBody u ∧ Piece.CommentBody v ∧
      Text.bytes "/*/*/" ++ w =
        Text.bytes "/*" ++ (Text.bytes "/*" ++ u ++ Text.bytes "*/") ++ v ++ Text.bytes "*/") ∧
    (∀ steps p rest, Piece.IsComment p → Piece.bytesRead source steps ++ (p ++ rest) = Text.bytes source →
      (∀ q, q <+: p ++ rest → Piece.IsComment q → q = p) ∧
      Piece.bytesRead source (steps + 1) = Piece.bytesRead source steps ++ p ∧
      (Piece.ofBytes (Text.bytes source)).drop (steps + 1) = Piece.ofBytes rest ∧
      (Scan.after source (steps + 1)).tokens = (Scan.after source steps).tokens ∧
      (Scan.after source (steps + 1)).errors = (Scan.after source steps).errors) ∧
    (∀ steps r, (∀ p, p <+: Byte.slash :: Byte.star :: r → ¬ Piece.IsComment p) →
      Piece.bytesRead source steps ++ Byte.slash :: Byte.star :: r = Text.bytes source →
      Piece.bytesRead source (steps + 1) = Text.bytes source ∧
      (tokenize source sink).1.toList =
        (Scan.after source steps).tokens.toList ++ [.eof (1 + (Text.bytes source).count Byte.newline)] ∧
      (tokenize source ({} : Storage LexicalError)).2.errors.toList =
        (Scan.after source steps).errors.toList ++ [.openComment (1 + (Text.bytes source).count Byte.newline)] ∧
      ∀ e ∈ (Scan.after source steps).errors, e.cause = .strayByte) := by
  refine ⟨?_, ?_, ?_, ?_, ?_, ?_⟩
  · intro p rest r h
    exact Piece.commentLength?_eq_length_iff h
  · intro h
    exact absurd h.four_le_length (by decide)
  · exact ⟨[], .nil, by decide⟩
  · intro w h
    have hopen : Text.bytes "/*" = [Byte.slash, Byte.star] := by decide
    have hclose : Text.bytes "*/" = [Byte.star, Byte.slash] := by decide
    have hw : Text.bytes "/*/*/" ++ w = Byte.slash :: Byte.star :: Byte.slash :: Byte.star :: (Byte.slash :: w) := rfl
    rw [hw] at h ⊢
    obtain ⟨u, v, hu, hv, e⟩ := h.exists_of_open_open
    refine ⟨u, v, hu, hv, ?_⟩
    rw [e, hopen, hclose]
    simp
  · intro steps p rest hp h
    have hs := Scan.after_closed hp h
    have hread := Piece.bytesRead_succ (Or.inl (.blockComment hp)) trivial h
    refine ⟨?_, hread, ?_, ?_, ?_⟩
    · intro q hq hqc
      exact hqc.eq_of_prefix hp hq (List.prefix_append p rest)
    · apply Piece.drop_eq_of_bytesRead
      rw [hread, List.append_assoc, h]
    · rw [hs]
    · rw [hs]
  · intro steps r hr h
    have ha : Piece.Shape.openComment.Admits (Byte.slash :: Byte.star :: r) [] := Or.inl (.openComment hr)
    obtain ⟨hbody, herrors⟩ := tokenize_open sink hr h
    refine ⟨?_, ?_, herrors, ?_⟩
    · rw [← h]
      apply Piece.bytesRead_succ ha trivial
      rw [List.append_nil, h]
    · rw [TokenStream.toList, hbody, TokenStream.last, endLine_tokenize]
    · intro e he
      exact strayByte_of_mem_errors (List.cons_ne_nil _ _) h he

/-- A comment with another one inside it between two names, and at the end a comment that `*/` does not close because
its star is that of the opening. -/
theorem tokenize_comments_nested_then_open :
    Piece.IsComment (Text.bytes "/*/**/*/") ∧
    Piece.bytesRead "a/*/**/*/b/*/" 1 ++ (Text.bytes "/*/**/*/" ++ Text.bytes "b/*/") = Text.bytes "a/*/**/*/b/*/" ∧
    (∀ q, q <+: Text.bytes "/*/**/*/" ++ Text.bytes "b/*/" → Piece.IsComment q → q = Text.bytes "/*/**/*/") ∧
    Piece.bytesRead "a/*/**/*/b/*/" 2 = Piece.bytesRead "a/*/**/*/b/*/" 1 ++ Text.bytes "/*/**/*/" ∧
    (Scan.after "a/*/**/*/b/*/" 2).tokens = (Scan.after "a/*/**/*/b/*/" 1).tokens ∧
    (Scan.after "a/*/**/*/b/*/" 2).errors = (Scan.after "a/*/**/*/b/*/" 1).errors ∧
    (∀ p, p <+: Text.bytes "/*/" → ¬ Piece.IsComment p) ∧
    Piece.bytesRead "a/*/**/*/b/*/" 3 ++ Text.bytes "/*/" = Text.bytes "a/*/**/*/b/*/" ∧
    (tokenize "a/*/**/*/b/*/" ({} : Storage LexicalError)).1.toList =
      [⟨.identifier, "a", none, 1⟩, ⟨.identifier, "b", none, 1⟩, .eof 1] ∧
    (tokenize "a/*/**/*/b/*/" ({} : Storage LexicalError)).2.errors.toList = [.openComment 1] := by
  obtain ⟨hcount, -, -, -, hclosed, hopen⟩ := tokenize_comments "a/*/**/*/b/*/" ({} : Storage LexicalError)
  have hp : Piece.IsComment (Text.bytes "/*/**/*/") := (hcount _ [] _ rfl).1 (by decide +kernel)
  have h1 : Piece.bytesRead "a/*/**/*/b/*/" 1 ++ (Text.bytes "/*/**/*/" ++ Text.bytes "b/*/") =
      Text.bytes "a/*/**/*/b/*/" := by
    decide +kernel
  have h3 : Piece.bytesRead "a/*/**/*/b/*/" 3 ++ Text.bytes "/*/" = Text.bytes "a/*/**/*/b/*/" := by
    decide +kernel
  have hr : ∀ p, p <+: Text.bytes "/*/" → ¬ Piece.IsComment p := by
    intro p hp hc
    have hle := hp.length_le
    have hlen : (Text.bytes "/*/").length = 3 := by decide
    have := hc.four_le_length
    omega
  obtain ⟨hunique, hread, -, htokens, herrors⟩ := hclosed 1 _ _ hp h1
  obtain ⟨-, hlast, hfault, -⟩ := hopen 3 _ hr h3
  refine ⟨hp, h1, hunique, hread, htokens, herrors, hr, h3, ?_, ?_⟩
  · rw [hlast]
    decide +kernel
  · rw [hfault]
    decide +kernel

end ScriptLexer
