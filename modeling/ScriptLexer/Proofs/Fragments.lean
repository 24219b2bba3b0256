import ScriptLexer.Proofs.Concatenation

/-!
# Printing tokens and reading them back

A fragment is the spelling of a token, or text that stands for nothing between tokens.  A space after each fragment
keeps them apart, so a script of fragments has exactly their tokens and no errors; and every token of a script is that
of a fragment, so its lexemes with spaces between them have the same tokens again (`tokenize_fragments`).
-/

namespace ScriptLexer

def IsWord (p : List UInt8) : Prop :=
  ∃ b w, p = b :: w ∧ Byte.isWordStart b ∧ ∀ c ∈ w, Byte.isWordByte c

/-- The spelling of a token, or text between tokens. -/
inductive Fragment where
  | mark (m : Mark)
  | keyword (k : Keyword)
  | identifier (w : String) (isWord : IsWord (Text.bytes w)) (ne : ∀ k : Keyword, w ≠ k.spelling)
  | number (w : String) (n : Numeral) (spelled : n.Spelled (Text.bytes w))
  | string (body : String) (notMem : Byte.quote ∉ Text.bytes body)
  | blanks (w : String) (isBlank : ∀ b ∈ Text.bytes w, Byte.isBlank b)
  | lineComment (body : String) (notMem : Byte.newline ∉ Text.bytes body)
  | blockComment (w : String) (isComment : Piece.IsComment (Text.bytes w))

namespace Fragment

/-- The text of a fragment.  That of a line comment ends with the line feed after it. -/
def text : Fragment → String
  | mark m => m.spelling
  | keyword k => k.spelling
  | identifier w _ _ => w
  | number w _ _ => w
  | string body _ => "\"" ++ body ++ "\""
  | blanks w _ => w
  | lineComment body _ => "//" ++ body ++ "\n"
  | blockComment w _ => w

def token? (line : Nat) : Fragment → Option Token
  | mark m => some ⟨.mark m, m.spelling, none, line⟩
  | keyword k => some ⟨.keyword k, k.spelling, none, line⟩
  | identifier w _ _ => some ⟨.identifier, w, none, line⟩
  | number w n _ => some ⟨.number, w, some (.number n.toBinary64), line⟩
  | string body _ => some ⟨.string, "\"" ++ body ++ "\"", some (.text body), line⟩
  | _ => none

def newlines (f : Fragment) : Nat :=
  (Text.bytes f.text).count Byte.newline

/-- The tokens of some fragments that begin on the given line. -/
def tokensFrom (line : Nat) : List Fragment → List Token
  | [] => []
  | f :: fs => (f.token? (line + f.newlines)).toList ++ tokensFrom (line + f.newlines) fs

/-- The script in which a space follows each fragment. -/
def print (fs : List Fragment) : String :=
  String.join (fs.map fun f => f.text ++ " ")

def pieces : Fragment → List Piece
  | mark m => [⟨.mark m, m.bytes⟩]
  | keyword k => [⟨.word, Text.bytes k.spelling⟩]
  | identifier w _ _ => [⟨.word, Text.bytes w⟩]
  | number w _ _ => [⟨.number, Text.bytes w⟩]
  | string body _ => [⟨.string, Text.bytes ("\"" ++ body ++ "\"")⟩]
  | blanks w _ => (Text.bytes w).map fun b => ⟨.blank, [b]⟩
  | lineComment body _ => [⟨.lineComment, Text.bytes ("//" ++ body)⟩, ⟨.blank, [Byte.newline]⟩]
  | blockComment w _ => [⟨.blockComment, Text.bytes w⟩]

/-! ### The pieces of one fragment -/

private theorem ofBytes_word {p : List UInt8} (h : IsWord p) : Piece.ofBytes p = [⟨.word, p⟩] := by
  obtain ⟨b, w, rfl, hb, hw⟩ := h
  exact Piece.ofBytes_single (Or.inl (.word hb hw))

private theorem isWord_keyword (k : Keyword) : IsWord (Text.bytes k.spelling) := by
  have word : ∀ b w, (Byte.isWordStart b && w.all Byte.isWordByte) = true → IsWord (b :: w) := by
    intro b w h
    rw [Bool.and_eq_true, List.all_eq_true] at h
    exact ⟨b, w, rfl, h⟩
  cases k <;> exact word _ _ (by decide)

private theorem bytes_lineComment (body : String) :
    Text.bytes ("//" ++ body) = Byte.slash :: Byte.slash :: Text.bytes body := by
  have hs : Text.bytes "//" = [Byte.slash, Byte.slash] := by decide
  rw [Text.bytes_append, hs]
  rfl

theorem ofBytes_text (f : Fragment) : Piece.ofBytes (Text.bytes f.text) = f.pieces := by
  cases f with
  | mark m => exact Piece.ofBytes_single (Or.inl (.mark m))
  | keyword k => exact ofBytes_word (isWord_keyword k)
  | identifier w hw _ => exact ofBytes_word hw
  | number w n hn => exact Piece.ofBytes_single (Or.inl (.number hn))
  | string body hq =>
    rw [text, pieces, Piece.bytes_quoted]
    exact Piece.ofBytes_single (Or.inl (.string hq))
  | blanks w hw => exact Piece.ofBytes_blanks hw
  | lineComment body hn =>
    -- the line feed after the comment is a piece of its own
    have e : Text.bytes "\n" = [Byte.newline] := by decide
    have hm : Piece.Shape.lineComment.Admits (Text.bytes ("//" ++ body)) [Byte.newline] := by
      rw [bytes_lineComment]
      exact Or.inl (.lineComment hn)
    have hs : Byte.Halts (· != Byte.newline) [Byte.newline] := Byte.halts_cons.2 (by decide)
    rw [text, pieces, Text.bytes_append, e, Piece.ofBytes_append hm hs]
    congr 1
    exact Piece.ofBytes_single (Or.inl (.blank (by decide)))
  | blockComment w hc => exact Piece.ofBytes_single (Or.inl (.blockComment hc))

private theorem exists_reads {f : Fragment} {line : Nat} {t : Token} (h : f.token? line = some t) :
    t.line = line ∧ ∃ p, f.pieces = [p] ∧ p.Reads t := by
  cases f with
  | mark m =>
    cases h
    exact ⟨rfl, _, rfl, .mark m line⟩
  | keyword k =>
    cases h
    exact ⟨rfl, _, rfl, .keyword k line⟩
  | identifier w _ hk =>
    cases h
    exact ⟨rfl, _, rfl, .identifier line hk⟩
  | number w n hn =>
    cases h
    exact ⟨rfl, _, rfl, .number line hn⟩
  | string body _ =>
    cases h
    exact ⟨rfl, _, rfl, .string body line⟩
  | _ => cases h

private theorem isLexeme_of_mem_pieces {f : Fragment} {line : Nat} (h : f.token? line = none) :
    ∀ p ∈ f.pieces, p.shape.isLexeme = false := by
  cases f with
  | mark | keyword | identifier | number | string => cases h
  | blanks w _ =>
    intro p hp
    obtain ⟨b, -, rfl⟩ := List.mem_map.1 hp
    rfl
  | lineComment body _ => exact List.forall_mem_cons.2 ⟨rfl, List.forall_mem_singleton.2 rfl⟩
  | blockComment w _ => exact List.forall_mem_singleton.2 rfl

private theorem isFault_of_mem_pieces (f : Fragment) : ∀ p ∈ f.pieces, p.shape.isFault = false := by
  cases f with
  | blanks w _ =>
    intro p hp
    obtain ⟨b, -, rfl⟩ := List.mem_map.1 hp
    rfl
  | lineComment body _ => exact List.forall_mem_cons.2 ⟨rfl, List.forall_mem_singleton.2 rfl⟩
  | _ => exact List.forall_mem_singleton.2 rfl

private theorem shape_getLast?_pieces (f : Fragment) : ∀ p ∈ f.pieces.getLast?, p.shape ≠ .lineComment := by
  cases f with
  | blanks w _ =>
    intro p hp
    obtain ⟨b, -, rfl⟩ := List.mem_map.1 (List.mem_of_getLast? hp)
    exact Piece.Shape.noConfusion
  | _ =>
    intro p hp
    cases hp
    exact Piece.Shape.noConfusion

private theorem newlinesIn_pieces (f : Fragment) : Piece.newlinesIn f.pieces = f.newlines := by
  rw [← ofBytes_text, Piece.newlinesIn_ofBytes, newlines]

theorem gather_token?_pieces (line : Nat) (f : Fragment) :
    Piece.gather Piece.token? line f.pieces = (f.token? (line + f.newlines)).toList := by
  cases h : f.token? (line + f.newlines) with
  | none => exact Piece.gather_eq_nil (fun p hp => Piece.token?_eq_none (isLexeme_of_mem_pieces h p hp)) line
  | some t =>
    obtain ⟨hl, p, hp, ht⟩ := exists_reads h
    have hn : p.newlines = f.newlines := by
      rw [← newlinesIn_pieces, hp, Piece.newlinesIn_cons, Piece.newlinesIn_nil, Nat.add_zero]
    rw [hp, Piece.gather, hn, ← hl, ht.token?_eq]
    rfl

theorem gather_error?_pieces (line : Nat) (f : Fragment) : Piece.gather Piece.error? line f.pieces = [] :=
  Piece.gather_eq_nil (fun p hp => Piece.error?_eq_none (f.isFault_of_mem_pieces p hp)) line

/-! ### Scripts of fragments -/

private theorem bytes_space : Text.bytes " " = [0x20] := by
  decide

private theorem ofBytes_text_append_space (f : Fragment) (bs : List UInt8) :
    Piece.ofBytes (Text.bytes f.text ++ 0x20 :: bs) = f.pieces ++ ⟨.blank, [0x20]⟩ :: Piece.ofBytes bs := by
  have ho := fun p hp => Piece.Shape.isOpen_eq_false (f.isFault_of_mem_pieces p hp)
  have hl := f.shape_getLast?_pieces
  rw [← ofBytes_text] at ho hl
  rw [Piece.ofBytes_append_blank ho (by decide) (Or.inr hl), ofBytes_text]

private theorem gather_token?_text_append_space (line : Nat) (f : Fragment) (bs : List UInt8) :
    Piece.gather Piece.token? line (Piece.ofBytes (Text.bytes f.text ++ 0x20 :: bs)) =
      (f.token? (line + f.newlines)).toList ++ Piece.gather Piece.token? (line + f.newlines) (Piece.ofBytes bs) := by
  rw [ofBytes_text_append_space, Piece.gather_append, gather_token?_pieces, newlinesIn_pieces]
  rfl

private theorem gather_error?_text_append_space (line : Nat) (f : Fragment) (bs : List UInt8) :
    Piece.gather Piece.error? line (Piece.ofBytes (Text.bytes f.text ++ 0x20 :: bs)) =
      Piece.gather Piece.error? (line + f.newlines) (Piece.ofBytes bs) := by
  rw [ofBytes_text_append_space, Piece.gather_append, gather_error?_pieces, newlinesIn_pieces]
  rfl

private theorem bytes_print_cons (f : Fragment) (fs : List Fragment) :
    Text.bytes (print (f :: fs)) = Text.bytes f.text ++ 0x20 :: Text.bytes (print fs) := by
  rw [print, List.map_cons, String.join_cons, Text.bytes_append, Text.bytes_append, bytes_space, List.append_assoc]
  rfl

private theorem count_print (fs : List Fragment) (line : Nat) :
    line + (Text.bytes (print fs)).count Byte.newline = fs.foldl (fun line f => line + f.newlines) line := by
  induction fs generalizing line with
  | nil => exact congrArg (line + ·) (show (Text.bytes (print [])).count Byte.newline = 0 by decide)
  | cons f fs ih =>
    rw [bytes_print_cons, List.count_append, List.count_cons_of_ne (by decide), ← Nat.add_assoc, ih]
    rfl

private theorem read_print (line : Nat) (fs : List Fragment) :
    Piece.gather Piece.token? line (Piece.ofBytes (Text.bytes (print fs))) = tokensFrom line fs ∧
      Piece.gather Piece.error? line (Piece.ofBytes (Text.bytes (print fs))) = [] := by
  induction fs generalizing line with
  | nil =>
    have e : Text.bytes (print []) = [] := by decide
    rw [e, Piece.ofBytes_nil]
    exact ⟨rfl, rfl⟩
  | cons f fs ih =>
    rw [bytes_print_cons, gather_token?_text_append_space, gather_error?_text_append_space, (ih _).1]
    exact ⟨rfl, (ih _).2⟩

private theorem bytes_intercalate_cons (f g : Fragment) (fs : List Fragment) :
    Text.bytes (" ".intercalate ((f :: g :: fs).map text)) =
      Text.bytes f.text ++ 0x20 :: Text.bytes (" ".intercalate ((g :: fs).map text)) := by
  rw [List.map_cons, List.map_cons, String.intercalate_cons_cons, Text.bytes_append, Text.bytes_append, bytes_space,
    List.append_assoc]
  rfl

private theorem read_intercalate (line : Nat) (fs : List Fragment) :
    Piece.gather Piece.token? line (Piece.ofBytes (Text.bytes (" ".intercalate (fs.map text)))) = tokensFrom line fs ∧
      Piece.gather Piece.error? line (Piece.ofBytes (Text.bytes (" ".intercalate (fs.map text)))) = [] := by
  induction fs generalizing line with
  | nil =>
    have e : Text.bytes (" ".intercalate (([] : List Fragment).map text)) = [] := by
      rw [List.map_nil, String.intercalate_nil]
      rfl
    rw [e, Piece.ofBytes_nil]
    exact ⟨rfl, rfl⟩
  | cons f fs ih =>
    cases fs with
    | nil =>
      rw [List.map_singleton, String.intercalate_singleton, ofBytes_text, gather_token?_pieces,
        gather_error?_pieces, tokensFrom, tokensFrom, List.append_nil]
      exact ⟨rfl, rfl⟩
    | cons g fs =>
      rw [bytes_intercalate_cons, gather_token?_text_append_space, gather_error?_text_append_space, (ih _).1]
      exact ⟨rfl, (ih _).2⟩

/-! ### The lexemes of a script are fragments -/

private theorem isWord_of_admits {p rest : List UInt8} (h : Piece.Shape.word.Admits p rest) : IsWord p := by
  rcases h with h | ⟨b, e, -, -⟩
  · cases h with
    | word hb hw => exact ⟨_, _, rfl, hb, hw⟩
  · cases e

private theorem quote_notMem_of_admits {p body rest : List UInt8} (e : p = Byte.quote :: (body ++ [Byte.quote]))
    (h : Piece.Shape.string.Admits p rest) : Byte.quote ∉ body := by
  rcases h with h | ⟨b, e', -, -⟩
  · cases h with
    | string hq =>
      rw [List.cons.injEq, List.append_cancel_right_eq] at e
      rw [← e.2]
      exact hq
  · cases e'

private theorem exists_eq_token? {p : Piece} {t : Token} {rest : List UInt8} (ha : p.shape.Admits p.bytes rest)
    (ht : p.Reads t) : ∃ f : Fragment, f.text = t.lexeme ∧ ∀ line, f.token? line = some { t with line } := by
  cases ht with
  | mark m => exact ⟨mark m, rfl, fun _ => rfl⟩
  | keyword k => exact ⟨keyword k, rfl, fun _ => rfl⟩
  | @identifier w _ hk => exact ⟨identifier w (isWord_of_admits ha) hk, rfl, fun _ => rfl⟩
  | @number w n _ hn => exact ⟨number w n hn, rfl, fun _ => rfl⟩
  | string body =>
    have hq := quote_notMem_of_admits (Piece.bytes_quoted body) ha
    exact ⟨string body hq, rfl, fun _ => rfl⟩

end Fragment

/-- A token without its line. -/
def Token.content (t : Token) : Token.Kind × String × Option Literal :=
  (t.kind, t.lexeme, t.literal)

/-- The lexemes of a stream with spaces between them. -/
def TokenStream.respell (s : TokenStream) : String :=
  " ".intercalate (s.toList.dropLast.map Token.lexeme)

private theorem Fragment.exists_lexemes {os : List Occurrence} {ts : List Token}
    (h : List.Forall₂ (fun o t => o.piece.shape.Admits o.piece.bytes o.after ∧ o.piece.Reads t) os ts) :
    ∃ fs : List Fragment, fs.map text = ts.map Token.lexeme ∧
      ∀ line, (tokensFrom line fs).map Token.content = ts.map Token.content := by
  induction h with
  | nil => exact ⟨[], rfl, fun _ => rfl⟩
  | @cons o t os ts ht _ ih =>
    obtain ⟨f, hf, hft⟩ := exists_eq_token? ht.1 ht.2
    obtain ⟨fs, hfs, hfts⟩ := ih
    refine ⟨f :: fs, ?_, ?_⟩
    · rw [List.map_cons, List.map_cons, hf, hfs]
    · intro line
      rw [tokensFrom, hft, List.map_append, hfts]
      rfl

private theorem exists_fragments {σ : Type} [Sink σ LexicalError] (source : String) (sink : σ) :
    ∃ fs : List Fragment, fs.map Fragment.text = (tokenize source sink).1.body.toList.map Token.lexeme ∧
      ∀ line, (Fragment.tokensFrom line fs).map Token.content =
        (tokenize source sink).1.body.toList.map Token.content := by
  have h := Occurrence.forall₂_tokens source sink
  have hm : ∀ o ∈ (Occurrence.ofSource source).filter Occurrence.isLexeme,
      o.piece.shape.Admits o.piece.bytes o.after :=
    fun o ho => (Occurrence.admits_of_mem (List.mem_filter.1 ho).1).2.1
  exact Fragment.exists_lexemes (((List.forall₂_and_left _ _).2 ⟨hm, h⟩).imp fun _ _ h => ⟨h.1, h.2.1⟩)

/-- A script of fragments with a space after each has exactly their tokens, each on the line on which its fragment ends,
and no errors.  The lexemes of any script with spaces between them have the same tokens again but for their lines, and
no errors. -/
theorem tokenize_fragments {σ : Type} [Sink σ LexicalError] (sink : σ) :
    (∀ fs : List Fragment,
      (tokenize (Fragment.print fs) sink).1.toList =
        Fragment.tokensFrom 1 fs ++ [.eof (fs.foldl (fun line f => line + f.newlines) 1)] ∧
      (tokenize (Fragment.print fs) ({} : Storage LexicalError)).2.errors.toList = []) ∧
    ∀ source : String,
      (tokenize (tokenize source sink).1.respell sink).1.toList.map Token.content =
        (tokenize source sink).1.toList.map Token.content ∧
      (tokenize (tokenize source sink).1.respell ({} : Storage LexicalError)).2.errors.toList = [] := by
  constructor
  · intro fs
    have hn := Fragment.count_print fs 1
    have h := Fragment.read_print 1 fs
    rw [TokenStream.toList, TokenStream.last, body_tokenize, endLine_tokenize, errors_tokenize, h.1, hn]
    exact ⟨rfl, h.2⟩
  · intro source
    obtain ⟨fs, hf, ht⟩ := exists_fragments source sink
    have h := Fragment.read_intercalate 1 fs
    rw [hf, ← TokenStream.dropLast_toList, ← TokenStream.respell] at h
    rw [TokenStream.toList, TokenStream.toList, List.map_append, List.map_append, body_tokenize, errors_tokenize, h.1,
      ht]
    exact ⟨rfl, h.2⟩

end ScriptLexer
