import Mathlib.Data.List.Forall2
import ScriptLexer.TokenStream
import ScriptLexer.Proofs.FirstPiece
import ScriptLexer.Proofs.Reading

/-!
# Pieces in their script

A scan of some pieces adds their tokens and errors to what it has, the lines being counted from where it stands
(`Scan.foldl_step`), so `tokenize` is described by the tokens and errors of the pieces (`body_tokenize`,
`errors_tokenize`).  An occurrence is a piece together with the bytes before and after it in its script.  The key fact:
the tokens and the errors of a script belong one by one to the occurrences of its lexemes and faults
(`forall₂_tokens`, `forall₂_errors`).
-/

namespace ScriptLexer

namespace Piece

def newlinesIn (ps : List Piece) : Nat :=
  ((ps.map bytes).flatten).count Byte.newline

/-- What `f` finds in some pieces that begin on the given line.  It is told the line on which each piece ends. -/
def gather {α : Type} (f : Nat → Piece → Option α) (line : Nat) : List Piece → List α
  | [] => []
  | p :: ps => (f (line + p.newlines) p).toList ++ gather f (line + p.newlines) ps

@[simp] theorem newlinesIn_nil : newlinesIn [] = 0 := rfl

@[simp] theorem newlinesIn_cons (p : Piece) (ps : List Piece) : newlinesIn (p :: ps) = p.newlines + newlinesIn ps := by
  simp [newlinesIn, newlines]

theorem newlinesIn_append (ps qs : List Piece) : newlinesIn (ps ++ qs) = newlinesIn ps + newlinesIn qs := by
  simp [newlinesIn]

theorem newlinesIn_ofBytes (bs : List UInt8) : newlinesIn (ofBytes bs) = bs.count Byte.newline := by
  rw [newlinesIn, flatten_ofBytes]

section Gather

variable {α : Type} {f : Nat → Piece → Option α}

theorem gather_append (line : Nat) (ps qs : List Piece) :
    gather f line (ps ++ qs) = gather f line ps ++ gather f (line + newlinesIn ps) qs := by
  induction ps generalizing line with
  | nil => rfl
  | cons p ps ih => rw [List.cons_append, gather, gather, ih, newlinesIn_cons, List.append_assoc, Nat.add_assoc]

theorem gather_eq_nil {ps : List Piece} (h : ∀ p ∈ ps, ∀ line, f line p = none) (line : Nat) :
    gather f line ps = [] := by
  induction ps generalizing line with
  | nil => rfl
  | cons p ps ih =>
    rw [List.forall_mem_cons] at h
    rw [gather, h.1, ih h.2]
    rfl

theorem gather_add {g : α → α} {n : Nat} (h : ∀ line p, f (line + n) p = (f line p).map g) (line : Nat)
    (ps : List Piece) : gather f (line + n) ps = (gather f line ps).map g := by
  induction ps generalizing line with
  | nil => rfl
  | cons p ps ih =>
    have e : line + n + p.newlines = line + p.newlines + n := by omega
    rw [gather, gather, e, h, ih, List.map_append, Option.toList_map]

end Gather

end Piece

/-! ### Scans -/

theorem Scan.step_eq (s : Scan) (p : Piece) :
    s.step p = ⟨s.line + p.newlines, s.tokens ++ (p.token? (s.line + p.newlines)).toList.toArray,
      s.errors ++ (p.error? (s.line + p.newlines)).toList.toArray⟩ := by
  simp only [step]
  cases p.token? (s.line + p.newlines) <;> cases p.error? (s.line + p.newlines) <;> simp

/-- A scan counts the lines of some pieces and adds their tokens and errors. -/
theorem Scan.foldl_step (ps : List Piece) (s : Scan) :
    ps.foldl step s = ⟨s.line + Piece.newlinesIn ps, s.tokens ++ (Piece.gather Piece.token? s.line ps).toArray,
      s.errors ++ (Piece.gather Piece.error? s.line ps).toArray⟩ := by
  induction ps generalizing s with
  | nil => simp [Piece.gather]
  | cons p ps ih =>
    rw [List.foldl_cons, ih, step_eq, Piece.newlinesIn_cons, Piece.gather, Piece.gather]
    simp only [Nat.add_assoc, Array.append_assoc, List.append_toArray]

theorem Scan.ofSource_eq (source : String) :
    ofSource source = ⟨1 + (Text.bytes source).count Byte.newline,
      (Piece.gather Piece.token? 1 (Piece.ofBytes (Text.bytes source))).toArray,
      (Piece.gather Piece.error? 1 (Piece.ofBytes (Text.bytes source))).toArray⟩ := by
  rw [ofSource, foldl_step, Piece.newlinesIn_ofBytes]
  simp

theorem Storage.receiveAll_eq {ε : Type} (s : Storage ε) (es : List ε) :
    Sink.receiveAll s es.toArray = ⟨s.errors ++ es.toArray⟩ := by
  rw [Sink.receiveAll, List.foldl_toArray]
  induction es generalizing s with
  | nil => simp
  | cons e es ih =>
    rw [List.foldl_cons, ih]
    simp [Sink.receive]

theorem TokenStream.dropLast_toList (s : TokenStream) : s.toList.dropLast = s.body.toList := by
  rw [toList, List.dropLast_concat]

theorem TokenStream.eq_of_body_eq {s s' : TokenStream} (hb : s.body.toList = s'.body.toList)
    (hl : s.endLine = s'.endLine) : s = s' := by
  obtain ⟨body, line⟩ := s
  obtain ⟨body', line'⟩ := s'
  rw [mk.injEq]
  exact ⟨Array.toList_inj.1 hb, hl⟩

section Tokenize

variable {σ : Type} [Sink σ LexicalError] (source : String) (sink : σ)

theorem body_tokenize :
    (tokenize source sink).1.body.toList = Piece.gather Piece.token? 1 (Piece.ofBytes (Text.bytes source)) := by
  rw [tokenize, Scan.ofSource_eq]

theorem endLine_tokenize : (tokenize source sink).1.endLine = 1 + (Text.bytes source).count Byte.newline := by
  rw [tokenize, Scan.ofSource_eq]

theorem errors_tokenize :
    (tokenize source ({} : Storage LexicalError)).2.errors.toList =
      Piece.gather Piece.error? 1 (Piece.ofBytes (Text.bytes source)) := by
  rw [tokenize, Scan.ofSource_eq, Storage.receiveAll_eq]
  simp

end Tokenize

/-! ### Occurrences -/

/-- A piece with the bytes of its script before and after it. -/
structure Occurrence where
  before : List UInt8
  piece : Piece
  after : List UInt8

namespace Occurrence

/-- The occurrences of some pieces that come after the given bytes. -/
def listFrom (before : List UInt8) : List Piece → List Occurrence
  | [] => []
  | p :: ps => ⟨before, p, (ps.map Piece.bytes).flatten⟩ :: listFrom (before ++ p.bytes) ps

/-- All the pieces of a script, in order, each in its place. -/
def ofSource (source : String) : List Occurrence :=
  listFrom [] (Piece.ofBytes (Text.bytes source))

def isLexeme (o : Occurrence) : Bool :=
  o.piece.shape.isLexeme

def isFault (o : Occurrence) : Bool :=
  o.piece.shape.isFault

def endLine (o : Occurrence) : Nat :=
  1 + (o.before ++ o.piece.bytes).count Byte.newline

/-- The number of bytes up to the end of an occurrence. -/
def endOffset (o : Occurrence) : Nat :=
  (o.before ++ o.piece.bytes).length

/-- The occurrences of the lexemes of a script. -/
def lexemes (source : String) : List Occurrence :=
  (ofSource source).filter isLexeme

theorem map_piece_listFrom (before : List UInt8) (ps : List Piece) : (listFrom before ps).map piece = ps := by
  induction ps generalizing before with
  | nil => rfl
  | cons p ps ih => rw [listFrom, List.map_cons, ih]

/-- Every occurrence is in its class, and nothing continues it. -/
private theorem admits_of_mem_listFrom {before bs : List UInt8} {o : Occurrence}
    (h : o ∈ listFrom before (Piece.ofBytes bs)) :
    o.before ++ o.piece.bytes ++ o.after = before ++ bs ∧ o.piece.shape.Admits o.piece.bytes o.after ∧
      o.piece.shape.Stops o.piece.bytes o.after := by
  induction bs using Piece.inductionOnPieces generalizing before with
  | nil => simp [listFrom] at h
  | cons s p rest ha hs ih =>
    rw [Piece.ofBytes_append ha hs, listFrom, List.mem_cons, Piece.flatten_ofBytes] at h
    rcases h with rfl | h
    · exact ⟨by simp, ha, hs⟩
    · rw [← List.append_assoc]
      exact ih h

theorem admits_of_mem {source : String} {o : Occurrence} (h : o ∈ ofSource source) :
    o.before ++ o.piece.bytes ++ o.after = Text.bytes source ∧ o.piece.shape.Admits o.piece.bytes o.after ∧
      o.piece.shape.Stops o.piece.bytes o.after :=
  admits_of_mem_listFrom h

theorem endOffset_add_length_after {source : String} {o : Occurrence} (h : o ∈ ofSource source) :
    o.endOffset + o.after.length = (Text.bytes source).length := by
  rw [← (admits_of_mem h).1, endOffset, ← List.length_append]

/-- If `f` finds something in the occurrences that `q` selects and nothing in the others, then what it finds belongs to
the selected ones, one by one. -/
private theorem forall₂_gather {α : Type} {f : Nat → Piece → Option α} {q : Occurrence → Bool}
    {R : Occurrence → α → Prop} {before : List UInt8} {ps : List Piece}
    (h : ∀ o ∈ listFrom before ps, if q o then ∃ x, f o.endLine o.piece = some x ∧ R o x else
      f o.endLine o.piece = none) :
    List.Forall₂ R ((listFrom before ps).filter q) (Piece.gather f (1 + before.count Byte.newline) ps) := by
  induction ps generalizing before with
  | nil => exact .nil
  | cons p ps ih =>
    rw [listFrom, List.forall_mem_cons] at h
    have e : 1 + before.count Byte.newline + p.newlines = 1 + (before ++ p.bytes).count Byte.newline := by
      rw [List.count_append, Piece.newlines, Nat.add_assoc]
    rw [listFrom, Piece.gather, e]
    cases hq : q ⟨before, p, (ps.map Piece.bytes).flatten⟩ with
    | true =>
      rw [hq, if_pos rfl] at h
      obtain ⟨⟨x, hx, hR⟩, h⟩ := h
      have hx' : f (1 + (before ++ p.bytes).count Byte.newline) p = some x := hx
      rw [List.filter_cons_of_pos hq, hx']
      exact .cons hR (ih h)
    | false =>
      rw [hq, if_neg Bool.false_ne_true] at h
      have hx : f (1 + (before ++ p.bytes).count Byte.newline) p = none := h.1
      rw [List.filter_cons_of_neg (by rw [hq]; exact Bool.false_ne_true), hx]
      exact ih h.2

section Tokenize

variable {σ : Type} [Sink σ LexicalError] (source : String) (sink : σ)

/-- The tokens belong one by one to the lexemes. -/
theorem forall₂_tokens :
    List.Forall₂ (fun o t => o.piece.Reads t ∧ t.line = o.endLine) ((ofSource source).filter isLexeme)
      (tokenize source sink).1.body.toList := by
  rw [body_tokenize]
  apply forall₂_gather
  intro o ho
  obtain ⟨e, ha, -⟩ := admits_of_mem ho
  cases hl : o.isLexeme with
  | true =>
    have hv : Text.Valid (o.before ++ o.piece.bytes ++ o.after) := e ▸ Text.valid_bytes source
    obtain ⟨t, ht, e⟩ := Piece.exists_reads ha hl hv o.endLine
    exact ⟨t, e ▸ ht.token?_eq, ht, e⟩
  | false => exact Piece.token?_eq_none hl _

theorem length_lexemes : (lexemes source).length = (tokenize source sink).1.body.toList.length :=
  (forall₂_tokens source sink).length_eq

/-- The tokens before the last are those of the lexemes, index by index. -/
theorem exists_token_of_lexeme {i : Nat} {o : Occurrence} (h : (lexemes source)[i]? = some o) :
    ∃ t, (tokenize source sink).1.body.toList[i]? = some t ∧ o.piece.Reads t ∧ t.line = o.endLine := by
  obtain ⟨hl, hR⟩ := List.forall₂_iff_get.1 (forall₂_tokens source sink)
  obtain ⟨hi, rfl⟩ := List.getElem?_eq_some_iff.1 h
  have hi' : i < (tokenize source sink).1.body.toList.length := length_lexemes source sink ▸ hi
  exact ⟨_, List.getElem?_eq_getElem hi', hR i hi hi'⟩

/-- The errors belong one by one to the faults. -/
theorem forall₂_errors :
    List.Forall₂ (fun o e => o.piece.Faults e ∧ e.line = o.endLine) ((ofSource source).filter isFault)
      (tokenize source ({} : Storage LexicalError)).2.errors.toList := by
  rw [errors_tokenize]
  apply forall₂_gather
  intro o ho
  obtain ⟨-, ha, -⟩ := admits_of_mem ho
  cases hf : o.isFault with
  | true =>
    obtain ⟨err, he, e⟩ := Piece.exists_faults ha hf o.endLine
    exact ⟨err, e ▸ he.error?_eq, he, e⟩
  | false => exact Piece.error?_eq_none hf _

end Tokenize

end Occurrence

end ScriptLexer
