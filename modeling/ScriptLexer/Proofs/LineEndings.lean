import ScriptLexer.Proofs.Concatenation
import ScriptLexer.Proofs.Encoding
import ScriptLexer.Proofs.Lines

/-!
# Line endings

`Text.crlf` puts a carriage return before every line feed of a text.  In a script the carriage return is a blank of its
own, or the end of a line comment, or a part of a string, comment or fault that had the line feed in it; it neither
begins nor ends anything (`Piece.Shape.Admits.crlf`, `Piece.Shape.Stops.crlf`).  So the pieces stand for the same tokens
and errors (`Piece.gather_crlf`), but for the line feeds within strings (`tokenize_crlf`).
-/

namespace ScriptLexer

/-! ### Carriage returns before line feeds -/

namespace Byte

abbrev carriageReturn : UInt8 := 0x0D

/-- The bytes with a carriage return before every line feed. -/
def crlf (bs : List UInt8) : List UInt8 :=
  bs.flatMap fun b => if b = newline then [carriageReturn, newline] else [b]

@[simp] theorem crlf_nil : crlf [] = [] := rfl

theorem crlf_newline_cons (bs : List UInt8) : crlf (newline :: bs) = carriageReturn :: newline :: crlf bs := rfl

theorem crlf_cons {b : UInt8} (h : b ≠ newline) (bs : List UInt8) : crlf (b :: bs) = b :: crlf bs := by
  rw [crlf, List.flatMap_cons, if_neg h]
  rfl

theorem crlf_append (bs bs' : List UInt8) : crlf (bs ++ bs') = crlf bs ++ crlf bs' :=
  List.flatMap_append

private theorem crlf_eq_self {bs : List UInt8} (h : newline ∉ bs) : crlf bs = bs := by
  induction bs with
  | nil => rfl
  | cons b bs ih =>
    rw [List.mem_cons, not_or] at h
    rw [crlf_cons (Ne.symm h.1), ih h.2]

theorem mem_crlf {b : UInt8} (h : b ≠ carriageReturn) {bs : List UInt8} : b ∈ crlf bs ↔ b ∈ bs := by
  induction bs with
  | nil => rfl
  | cons c bs ih =>
    by_cases hc : c = newline
    · subst hc
      rw [crlf_newline_cons, List.mem_cons, List.mem_cons, List.mem_cons, ih, or_iff_right h]
    · rw [crlf_cons hc, List.mem_cons, List.mem_cons, ih]

theorem count_newline_crlf (bs : List UInt8) : (crlf bs).count newline = bs.count newline := by
  induction bs with
  | nil => rfl
  | cons b bs ih =>
    by_cases hb : b = newline
    · subst hb
      rw [crlf_newline_cons, List.count_cons_of_ne (by decide), List.count_cons_self, List.count_cons_self, ih]
    · rw [crlf_cons hb, List.count_cons_of_ne hb, List.count_cons_of_ne hb, ih]

private theorem isInert_carriageReturn : isInert carriageReturn := by
  decide

private theorem beginsLike_crlf (bs : List UInt8) : BeginsLike (crlf bs) bs := by
  cases bs with
  | nil => simp [BeginsLike]
  | cons b bs =>
    by_cases hb : b = newline
    · subst hb
      exact beginsLike_cons_of_isInert isInert_carriageReturn _ _
    · rw [crlf_cons hb]
      exact beginsLike_cons b _ _

private theorem exists_of_crlf_eq_dot_cons {bs r' : List UInt8} (h : crlf bs = dot :: r') :
    ∃ r, bs = dot :: r ∧ r' = crlf r := by
  cases bs with
  | nil => cases h
  | cons b bs =>
    by_cases hb : b = newline
    · subst hb
      exact absurd (List.cons.inj h).1 (by decide)
    · rw [crlf_cons hb, List.cons.injEq] at h
      exact ⟨bs, by rw [h.1], h.2.symm⟩

end Byte

namespace Text

/-- The text with a carriage return before every line feed. -/
def crlf (s : String) : String :=
  String.ofList (s.toList.flatMap fun c => if c = '\n' then ['\r', '\n'] else [c])

private theorem encode_crlf (cs : List Char) :
    encode (cs.flatMap fun c => if c = '\n' then ['\r', '\n'] else [c]) = Byte.crlf (encode cs) := by
  have hn := agrees_beq Byte.newline '\n' (by decide)
  induction cs with
  | nil => rfl
  | cons c cs ih =>
    rw [List.flatMap_cons, encode_append, ih, encode_cons, Byte.crlf_append]
    congr 1
    by_cases hc : c = '\n'
    · subst hc
      rfl
    · have hb : Byte.newline ∉ String.utf8EncodeChar c := fun hb => hc ((hn.eq_iff hb).1 rfl)
      rw [if_neg hc, Byte.crlf_eq_self hb, encode_cons, encode_nil, List.append_nil]

theorem bytes_crlf (s : String) : bytes (crlf s) = Byte.crlf (bytes s) := by
  rw [crlf, bytes_ofList_eq_encode, encode_crlf, ← bytes_eq_encode]

/-- Carriage returns before the line feeds make no UTF-8 of bytes that are none. -/
private theorem Valid.of_crlf {bs : List UInt8} (h : Valid (Byte.crlf bs)) : Valid bs := by
  -- the bytes may be cut at each line feed, but not at each byte
  induction hl : bs.length using Nat.strongRecOn generalizing bs with
  | _ l ih =>
    subst hl
    by_cases hn : Byte.newline ∈ bs
    · obtain ⟨w, r, rfl, hw⟩ := List.eq_append_cons_of_mem hn
      rw [Byte.crlf_append, Byte.crlf_newline_cons, Byte.crlf_eq_self hw] at h
      have hcr := h.split (by decide)
      have hnl : Valid [] ∧ Valid (Byte.crlf r) := @Valid.split [] _ _ hcr.2 (by decide)
      have hr := ih r.length (by rw [List.length_append, List.length_cons]; omega) hnl.2 rfl
      have hv : Valid [Byte.newline] := ⟨"\n", by decide⟩
      exact hcr.1.append (hv.append hr)
    · rwa [Byte.crlf_eq_self hn] at h

private theorem ofBytes?_crlf (bs : List UInt8) : ofBytes? (Byte.crlf bs) = (ofBytes? bs).map crlf := by
  cases h : ofBytes? bs with
  | some s => rw [Option.map_some, ofBytes?_eq_some_iff, bytes_crlf, ofBytes?_eq_some_iff.1 h]
  | none =>
    rw [Option.map_none, Option.eq_none_iff_forall_ne_some]
    intro s hs
    obtain ⟨t, ht⟩ := Valid.of_crlf ⟨s, ofBytes?_eq_some_iff.1 hs⟩
    rw [ofBytes?_eq_some_iff.2 ht] at h
    cases h

end Text

namespace Piece

/-! ### Comments -/

private theorem not_isDelimiter_carriageReturn (a : UInt8) : ¬ IsDelimiter a Byte.carriageReturn := by
  rintro (⟨-, h⟩ | ⟨-, h⟩) <;> exact absurd h (by decide)

private theorem not_isDelimiter_of_blank {a : UInt8} (ha : Byte.isBlank a) (b : UInt8) : ¬ IsDelimiter a b := by
  rintro (⟨rfl, -⟩ | ⟨rfl, -⟩) <;> exact absurd ha (by decide)

/-- A delimiter does not begin with a byte before a line feed, nor with one before the carriage return there. -/
private theorem not_isDelimiter_head?_crlf {a : UInt8} {r : List UInt8} (h : ∀ b ∈ r.head?, ¬ IsDelimiter a b) :
    ∀ b ∈ (Byte.crlf r).head?, ¬ IsDelimiter a b := by
  cases r with
  | nil => exact h
  | cons b r =>
    by_cases hb : b = Byte.newline
    · subst hb
      intro c hc
      cases hc
      exact not_isDelimiter_carriageReturn a
    · rwa [Byte.crlf_cons hb]

theorem CommentBody.crlf {w : List UInt8} (h : CommentBody w) : CommentBody (Byte.crlf w) := by
  induction h with
  | nil => exact .nil
  | @nested u v _ _ ihu ihv =>
    have e : Byte.crlf (Byte.slash :: Byte.star :: (u ++ Byte.star :: Byte.slash :: v)) =
        Byte.slash :: Byte.star :: (Byte.crlf u ++ Byte.star :: Byte.slash :: Byte.crlf v) := by
      rw [Byte.crlf_cons (by decide), Byte.crlf_cons (by decide), Byte.crlf_append, Byte.crlf_cons (by decide),
        Byte.crlf_cons (by decide)]
    rw [e]
    exact .nested ihu ihv
  | @byte a w ha _ ih =>
    by_cases hn : a = Byte.newline
    · subst hn
      exact .byte (not_isDelimiter_of_blank (by decide) _) (.byte (not_isDelimiter_of_blank (by decide) _) ih)
    · rw [Byte.crlf_cons hn]
      refine .byte ?_ ih
      cases w with
      | nil => exact ha
      | cons b w =>
        by_cases hb : b = Byte.newline
        · subst hb
          exact not_isDelimiter_carriageReturn a
        · rwa [Byte.crlf_cons hb]

theorem IsComment.crlf {p : List UInt8} (h : IsComment p) : IsComment (Byte.crlf p) := by
  obtain ⟨w, hw, rfl⟩ := h
  refine ⟨Byte.crlf w, hw.crlf, ?_⟩
  rw [Byte.crlf_cons (by decide), Byte.crlf_cons (by decide), Byte.crlf_append]
  rfl

/-- The counter passes a line feed and the carriage return before it like the line feed alone. -/
private theorem commentLength?_crlf_cons {a : UInt8} {r : List UInt8} (h : ∀ b ∈ r.head?, ¬ IsDelimiter a b)
    (depth n : Nat) :
    ∃ m, commentLength? depth n (Byte.crlf (a :: r)) = commentLength? depth m (Byte.crlf r) := by
  by_cases ha : a = Byte.newline
  · subst ha
    refine ⟨n + 1 + 1, ?_⟩
    rw [Byte.crlf_newline_cons, commentLength?_cons fun b _ => not_isDelimiter_of_blank (by decide) b,
      commentLength?_cons fun b _ => not_isDelimiter_of_blank (by decide) b]
  · refine ⟨n + 1, ?_⟩
    rw [Byte.crlf_cons ha, commentLength?_cons (not_isDelimiter_head?_crlf h)]

private theorem commentLength?_crlf {depth n : Nat} {bs : List UInt8} (h : commentLength? depth n bs = none) (m : Nat) :
    commentLength? depth m (Byte.crlf bs) = none := by
  fun_induction commentLength? depth n bs generalizing m with
  | case1 => rfl
  | case2 depth n a =>
    obtain ⟨m', e⟩ := commentLength?_crlf_cons (a := a) (r := []) (by simp) depth m
    rw [e]
    rfl
  | case3 depth n a b r hd ih =>
    rw [Bool.and_eq_true, beq_iff_eq, beq_iff_eq] at hd
    obtain ⟨rfl, rfl⟩ := hd
    rw [Byte.crlf_cons (by decide), Byte.crlf_cons (by decide), commentLength?_open]
    exact ih h _
  | case4 n a b r => cases h
  | case5 depth n a b r _ hd h0 ih =>
    rw [Bool.and_eq_true, beq_iff_eq, beq_iff_eq] at hd
    obtain ⟨rfl, rfl⟩ := hd
    rw [Byte.crlf_cons (by decide), Byte.crlf_cons (by decide), commentLength?_close, if_neg h0]
    exact ih h _
  | case6 depth n a b r ho hc ih =>
    have hd : ¬ IsDelimiter a b := by simpa [IsDelimiter] using And.intro ho hc
    obtain ⟨m', e⟩ := commentLength?_crlf_cons (a := a) (r := b :: r) (by simpa using hd) depth m
    rw [e]
    exact ih h m'

/-! ### Pieces -/

/-- The shape of a piece and its bytes with a carriage return before every line feed. -/
def crlf (p : Piece) : Piece :=
  ⟨p.shape, Byte.crlf p.bytes⟩

private theorem newlines_crlf (p : Piece) : p.crlf.newlines = p.newlines :=
  Byte.count_newline_crlf p.bytes

/-- A piece stays in its class, unless it is a line feed. -/
theorem Shape.Admits.crlf {s : Shape} {p rest : List UInt8} (h : s.Admits p rest) (hp : p ≠ [Byte.newline]) :
    s.Admits (Byte.crlf p) (Byte.crlf rest) := by
  rcases h with h | ⟨b, rfl, rfl, h⟩
  · cases h with
    | mark m =>
      rw [Byte.crlf_eq_self m.newline_notMem_bytes]
      exact Or.inl (.mark m)
    | word hb hw =>
      have ha : Shape.word.Admits _ rest := Or.inl (.word hb hw)
      have hn := ha.newline_notMem rfl nofun
      rw [Byte.crlf_eq_self hn]
      exact Or.inl (.word hb hw)
    | number hn =>
      rw [Byte.crlf_eq_self (newline_notMem_of_spelled hn)]
      exact Or.inl (.number hn)
    | @string body _ hq =>
      rw [Byte.crlf_cons (by decide), Byte.crlf_append]
      exact Or.inl (.string (mt (Byte.mem_crlf (by decide)).1 hq))
    | @blank b _ hb =>
      rw [Byte.crlf_eq_self (by simpa [eq_comm] using hp)]
      exact Or.inl (.blank hb)
    | lineComment hn =>
      rw [Byte.crlf_cons (by decide), Byte.crlf_cons (by decide), Byte.crlf_eq_self hn]
      exact Or.inl (.lineComment hn)
    | blockComment hc => exact Or.inl (.blockComment hc.crlf)
    | openString hq =>
      rw [Byte.crlf_cons (by decide), Byte.crlf_nil]
      exact Or.inl (.openString (mt (Byte.mem_crlf (by decide)).1 hq))
    | openComment hc =>
      rw [Byte.crlf_cons (by decide), Byte.crlf_cons (by decide), Byte.crlf_nil]
      have hc' := commentLength?_crlf (commentLength?_eq_none_iff.2 hc) 2
      exact Or.inl (.openComment (commentLength?_eq_none_iff.1 hc'))
  · rw [Byte.crlf_eq_self (by simpa [eq_comm] using hp)]
    exact Or.inr ⟨b, rfl, rfl, h⟩

/-- A piece still stops where it stopped, unless it is a line comment. -/
theorem Shape.Stops.crlf {s : Shape} {p rest : List UInt8} (h : s.Stops p rest)
    (hs : s = .lineComment → rest = []) : s.Stops (Byte.crlf p) (Byte.crlf rest) := by
  have h' : s.Stops p (Byte.crlf rest) := by
    refine h.of_beginsLike (Byte.beginsLike_crlf rest) ?_ ?_
    · intro r' e
      obtain ⟨r, rfl, rfl⟩ := Byte.exists_of_crlf_eq_dot_cons e
      exact ⟨r, rfl, Byte.beginsLike_crlf r⟩
    · intro hl
      rw [hs hl]
      exact Byte.halts_nil _
  cases s with
  | number => exact ⟨h'.1, fun hd => h'.2 (mt (Byte.mem_crlf (by decide)).2 hd)⟩
  | _ => exact h'

/-! ### What the pieces stand for -/

section Gather

variable {α : Type} {f : Nat → Piece → Option α}

private theorem gather_ofBytes_append {s : Shape} {p rest : List UInt8} (ha : s.Admits p rest) (hs : s.Stops p rest)
    (line : Nat) :
    gather f line (ofBytes (p ++ rest)) = (f (line + newlines ⟨s, p⟩) ⟨s, p⟩).toList ++
      gather f (line + newlines ⟨s, p⟩) (ofBytes rest) := by
  rw [ofBytes_append ha hs, gather]

/-- A piece in which `f` finds nothing only counts for its line feeds. -/
private theorem gather_silent {s : Shape} {p rest : List UInt8} (ha : s.Admits p rest) (hs : s.Stops p rest)
    (hf : ∀ line, f line ⟨s, p⟩ = none) (line : Nat) :
    gather f line (ofBytes (p ++ rest)) = gather f (line + p.count Byte.newline) (ofBytes rest) := by
  rw [gather_ofBytes_append ha hs, hf]
  rfl

private theorem gather_blank_cons {b : UInt8} (hb : Byte.isBlank b) (hf : ∀ line p, p.shape = .blank → f line p = none)
    (line : Nat) (bs : List UInt8) :
    gather f line (ofBytes (b :: bs)) = gather f (line + [b].count Byte.newline) (ofBytes bs) :=
  gather_silent (Or.inl (.blank hb)) trivial (fun _ => hf _ _ rfl) line

private theorem exists_cons_newline {p rest : List UInt8} (h : Shape.lineComment.Stops p rest) (hne : rest ≠ []) :
    ∃ r, rest = Byte.newline :: r := by
  obtain ⟨c, r, rfl⟩ := List.exists_cons_of_ne_nil hne
  have hc : Byte.Halts (· != Byte.newline) (c :: r) := h
  rw [Byte.halts_cons] at hc
  exact ⟨r, by simpa using hc⟩

private theorem admits_append_carriageReturn {p rest : List UInt8} (h : Shape.lineComment.Admits p rest)
    (rest' : List UInt8) :
    Byte.newline ∉ p ∧ Shape.lineComment.Admits (p ++ [Byte.carriageReturn]) rest' := by
  rcases h with h | ⟨b, hs, -⟩
  · cases h with
    | @lineComment body _ hn =>
      have hp : Byte.newline ∉ Byte.slash :: Byte.slash :: body := by
        simpa [Byte.newline, Byte.slash] using hn
      have hn' : Byte.newline ∉ body ++ [Byte.carriageReturn] := by
        simpa [Byte.newline, Byte.carriageReturn] using hn
      exact ⟨hp, Or.inl (.lineComment hn')⟩
  · cases hs

/-- If `f` finds nothing in blanks and line comments, and the same up to `g` in a piece with carriage returns as in the
piece, then it finds the same up to `g` in all pieces of the bytes with carriage returns. -/
theorem gather_crlf {g : α → α} (hb : ∀ line p, p.shape = .blank → f line p = none)
    (hl : ∀ line p, p.shape = .lineComment → f line p = none)
    (hf : ∀ line p rest, p.shape.Admits p.bytes rest → f line p.crlf = (f line p).map g) (line : Nat)
    (bs : List UInt8) : gather f line (ofBytes (Byte.crlf bs)) = (gather f line (ofBytes bs)).map g := by
  induction bs using inductionOnPieces generalizing line with
  | nil => simp [gather]
  | cons s p rest ha hs ih =>
    by_cases hp : p = [Byte.newline]
    · -- the line feed becomes two blanks
      subst hp
      have ih' := ih (line + 1)
      have hn : Byte.isBlank Byte.newline := by decide
      rw [List.singleton_append, Byte.crlf_newline_cons, gather_blank_cons (by decide) hb, gather_blank_cons hn hb,
        gather_blank_cons hn hb]
      exact ih'
    by_cases hc : s = .lineComment ∧ rest ≠ []
    · -- the carriage return becomes the end of the comment
      obtain ⟨rfl, hrest⟩ := hc
      obtain ⟨r, rfl⟩ := exists_cons_newline hs hrest
      obtain ⟨hn, ha'⟩ := admits_append_carriageReturn ha (Byte.newline :: Byte.crlf r)
      have hs' : Byte.Halts (· != Byte.newline) (Byte.newline :: Byte.crlf r) := Byte.halts_cons.2 (by simp)
      have ih' := ih line
      rw [Byte.crlf_newline_cons, gather_blank_cons (by decide) hb] at ih'
      have e : Byte.crlf (p ++ Byte.newline :: r) = (p ++ [Byte.carriageReturn]) ++ Byte.newline :: Byte.crlf r := by
        rw [Byte.crlf_append, Byte.crlf_eq_self hn, Byte.crlf_newline_cons, List.append_assoc, List.singleton_append]
      rw [e, gather_silent ha' hs' fun line => hl line _ rfl, gather_silent ha hs fun line => hl line _ rfl,
        List.count_append, List.count_eq_zero_of_not_mem hn]
      exact ih'
    · have hs' : s.Stops (Byte.crlf p) (Byte.crlf rest) :=
        hs.crlf fun h => Classical.not_not.1 fun hr => hc ⟨h, hr⟩
      have hn : newlines ⟨s, Byte.crlf p⟩ = newlines ⟨s, p⟩ := newlines_crlf ⟨s, p⟩
      have e : f (line + newlines ⟨s, p⟩) ⟨s, Byte.crlf p⟩ = _ := hf _ ⟨s, p⟩ rest ha
      rw [Byte.crlf_append, gather_ofBytes_append (ha.crlf hp) hs', gather_ofBytes_append ha hs, hn, e, ih,
        List.map_append, Option.toList_map]

end Gather

end Piece

/-! ### Tokens and errors -/

def Literal.crlf : Literal → Literal
  | .text s => .text (Text.crlf s)
  | .number x => .number x

/-- A string token with a carriage return before every line feed of its lexeme and its text; any other token as it
is. -/
def Token.crlf (t : Token) : Token :=
  if t.kind = .string then { t with lexeme := Text.crlf t.lexeme, literal := t.literal.map Literal.crlf } else t

namespace Piece

private theorem ofWord_ne_string (w : String) : Token.Kind.ofWord w ≠ .string := by
  rw [Token.Kind.ofWord]
  cases Keyword.ofSpelling w <;> exact Token.Kind.noConfusion

/-- Only a piece that is a string stands for a string token. -/
private theorem kind_ne_string {line : Nat} {p : Piece} {t : Token} (hp : p.shape ≠ .string)
    (h : p.token? line = some t) : t.kind ≠ .string := by
  obtain ⟨s, bs⟩ := p
  cases s with
  | mark m =>
    cases e : Text.ofBytes? bs <;> simp [token?, e] at h
    rw [← h]
    exact Token.Kind.noConfusion
  | word =>
    cases e : Text.ofBytes? bs <;> simp [token?, e] at h
    rw [← h]
    exact ofWord_ne_string _
  | number =>
    cases e : Text.ofBytes? bs <;> cases e' : Numeral.ofBytes? bs <;> simp [token?, e, e'] at h
    rw [← h]
    exact Token.Kind.noConfusion
  | string => exact absurd rfl hp
  | _ => cases h

private theorem token?_crlf (line : Nat) (p : Piece) (rest : List UInt8) (ha : p.shape.Admits p.bytes rest) :
    p.crlf.token? line = (p.token? line).map Token.crlf := by
  by_cases hp : p.shape = .string
  · obtain ⟨s, bs⟩ := p
    obtain rfl : s = .string := hp
    rcases ha with ha | ⟨b, hs, -⟩
    · cases ha with
      | @string body _ hq =>
        have e : Byte.crlf (Byte.quote :: (body ++ [Byte.quote])) = Byte.quote :: (Byte.crlf body ++ [Byte.quote]) := by
          rw [Byte.crlf_cons (by decide), Byte.crlf_append]
          rfl
        have h1 := Text.ofBytes?_crlf (Byte.quote :: (body ++ [Byte.quote]))
        have h2 := Text.ofBytes?_crlf body
        rw [e] at h1
        cases h3 : Text.ofBytes? (Byte.quote :: (body ++ [Byte.quote])) <;> cases h4 : Text.ofBytes? body <;>
          simp [token?, crlf, e, h1, h2, h3, h4, Token.crlf, Literal.crlf]
    · cases hs
  cases hl : p.shape.isLexeme with
  | true =>
    have e : p.crlf = p := by
      rw [crlf, Byte.crlf_eq_self (ha.newline_notMem hl hp)]
    rw [e]
    cases h : p.token? line with
    | none => rfl
    | some t => rw [Option.map_some, Token.crlf, if_neg (kind_ne_string hp h)]
  | false =>
    rw [token?_eq_none hl, token?_eq_none (p := p.crlf) hl]
    rfl

private theorem error?_crlf (line : Nat) (p : Piece) : p.crlf.error? line = (p.error? line).map id := by
  rw [Option.map_id]
  rfl

end Piece

/-- A script with a carriage return before every line feed has the tokens of the script, with a carriage return before
every line feed of the strings among them and on the same lines, and the same errors. -/
theorem tokenize_crlf {σ : Type} [Sink σ LexicalError] (source : String) (sink : σ) :
    (tokenize (Text.crlf source) sink).1.toList = (tokenize source sink).1.toList.map Token.crlf ∧
    (tokenize (Text.crlf source) ({} : Storage LexicalError)).2.errors.toList =
      (tokenize source ({} : Storage LexicalError)).2.errors.toList := by
  constructor
  · have h := Piece.gather_crlf (fun line p hp => Piece.token?_eq_none (by rw [hp]; rfl) line)
      (fun line p hp => Piece.token?_eq_none (by rw [hp]; rfl) line) Piece.token?_crlf 1 (Text.bytes source)
    have hline : (Text.bytes (Text.crlf source)).count Byte.newline = (Text.bytes source).count Byte.newline := by
      rw [Text.bytes_crlf, Byte.count_newline_crlf]
    rw [TokenStream.toList, TokenStream.toList, TokenStream.last, TokenStream.last, body_tokenize, body_tokenize,
      endLine_tokenize, endLine_tokenize, hline, Text.bytes_crlf, h, List.map_append]
    rfl
  · have h := Piece.gather_crlf (fun line p hp => Piece.error?_eq_none (by rw [hp]; rfl) line)
      (fun line p hp => Piece.error?_eq_none (by rw [hp]; rfl) line) (fun line p _ _ => Piece.error?_crlf line p) 1
      (Text.bytes source)
    rw [errors_tokenize, errors_tokenize, Text.bytes_crlf, h, List.map_id]

example : (tokenize (Text.crlf "\"a\nb\" 1.\n5 /\n/ //\n") ({} : Storage LexicalError)).1.toList.map Token.lexeme =
    ["\"a\r\nb\"", "1", ".", "5", "/", "/", ""] := by
  decide +kernel

end ScriptLexer
