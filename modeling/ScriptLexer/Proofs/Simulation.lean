import ScriptLexer.Proofs.Occurrence
import ScriptLexer.Proofs.Segment

/-!
# Bytes and characters

Reading a script byte by byte and reading it character by character come to the same.  A segment of the characters is
one piece of the bytes, but a stray character is one piece for each of its bytes (`Segment.pieces`).  The key facts: the
first byte of an ASCII character is cut off together with the bytes of the segment (`Segment.cut_encode`), so the
pieces of the bytes are those of the segments (`Segment.ofBytes_encode`), and so the two scans are the same
(`Segment.ofSource_eq_scan`).
-/

namespace ScriptLexer

namespace Segment

open Text (encode Agrees agrees_beq agrees_isDigit)

/-! ### The classes agree -/

private theorem agrees_isBlank : Agrees Byte.isBlank isBlank :=
  (((agrees_beq 0x20 ' ' (by decide)).or (agrees_beq 0x09 '\t' (by decide))).or
    (agrees_beq 0x0D '\r' (by decide))).or (agrees_beq Byte.newline '\n' (by decide))

private theorem agrees_isWordStart : Agrees Byte.isWordStart isWordStart :=
  Text.agrees_of_ascii (by decide) (fun _ h => Piece.isWordByte_lt (by simp [Byte.isWordByte, h]))
    fun _ => toNat_lt_of_isWordStart

private theorem agrees_isWordByte : Agrees Byte.isWordByte isWordChar :=
  agrees_isWordStart.or agrees_isDigit

/-! ### Numerals, comments and marks -/

private theorem numeralLength_encode (cs : List Char) :
    Piece.numeralLength (encode cs) = (encode (numeral cs)).length := by
  rw [Piece.numeralLength, numeral, agrees_isDigit.takeWhile_encode, agrees_isDigit.dropWhile_encode]
  cases cs.dropWhile Char.isDigit with
  | nil => rfl
  | cons d ds =>
    by_cases hd : d = '.'
    · subst hd
      have e : encode ('.' :: ds) = Byte.dot :: encode ds := rfl
      simp only [e, agrees_isDigit.takeWhile_encode]
      cases ds.takeWhile Char.isDigit with
      | nil => rfl
      | cons x xs =>
        have hx : ((encode (x :: xs)).length != 0) = true := by
          obtain ⟨y, ys, -, hy⟩ := Text.exists_encode_eq_cons x xs
          rw [hy]
          rfl
        have hl (w : List Char) :
            (encode (w ++ '.' :: x :: xs)).length = (encode w).length + 1 + (encode (x :: xs)).length := by
          have hp : (encode ('.' :: x :: xs)).length = (encode (x :: xs)).length + 1 := rfl
          rw [Text.encode_append, List.length_append, hp]
          omega
        rw [hx, beq_self_eq_true, Bool.true_and, if_pos rfl]
        exact (hl _).symm
    · obtain ⟨b, bs, hb, e⟩ := Text.exists_encode_eq_cons d ds
      have hd' : (d == '.') = false := beq_eq_false_iff_ne.2 hd
      have hb' : (b == Byte.dot) = false := (agrees_beq Byte.dot '.' (by decide) d b hb).trans hd'
      simp only [e, hd', hb', Bool.false_and, Bool.false_eq_true, if_false]

private theorem isDelimiter_iff {c d : Char} {a b : UInt8} (ha : a ∈ String.utf8EncodeChar c)
    (hb : b ∈ String.utf8EncodeChar d) :
    Piece.IsDelimiter a b ↔ (c = '/' ∧ d = '*') ∨ (c = '*' ∧ d = '/') := by
  have hs := agrees_beq Byte.slash '/' (by decide)
  have ht := agrees_beq Byte.star '*' (by decide)
  rw [Piece.IsDelimiter, hs.eq_iff ha, ht.eq_iff ha, hs.eq_iff hb, ht.eq_iff hb]

private theorem not_isDelimiter {a : UInt8} (ha : ¬ a < 0x80) (b : UInt8) : ¬ Piece.IsDelimiter a b := by
  rintro (⟨rfl, -⟩ | ⟨rfl, -⟩) <;> exact ha (by decide)

private theorem commentLength?_append {bs : List UInt8} (h : ∀ b ∈ bs, ¬ b < 0x80) (depth n : Nat) (r : List UInt8) :
    Piece.commentLength? depth n (bs ++ r) = Piece.commentLength? depth (n + bs.length) r := by
  induction bs generalizing n with
  | nil => rfl
  | cons b bs ih =>
    rw [List.forall_mem_cons] at h
    rw [List.cons_append, Piece.commentLength?_cons (fun c _ => not_isDelimiter h.1 c), ih h.2, List.length_cons,
      Nat.add_right_comm, Nat.add_assoc]

/-- A character of a comment that does not begin a delimiter is passed with all its bytes. -/
private theorem commentLength?_encode_cons {c : Char} {cs : List Char}
    (h : ∀ d ∈ cs.head?, ¬ (c = '/' ∧ d = '*') ∧ ¬ (c = '*' ∧ d = '/')) (depth n : Nat) :
    Piece.commentLength? depth n (encode (c :: cs)) =
      Piece.commentLength? depth (n + (String.utf8EncodeChar c).length) (encode cs) := by
  rw [Text.encode_cons]
  rcases Text.utf8EncodeChar_cases c with ⟨-, e⟩ | ⟨-, hbs⟩
  · rw [e, List.singleton_append, List.length_singleton]
    refine Piece.commentLength?_cons (fun b hb => ?_) depth n
    cases cs with
    | nil => cases hb
    | cons d cs =>
      obtain ⟨x, xs, hx, e'⟩ := Text.exists_encode_eq_cons d cs
      rw [e', List.head?_cons, Option.mem_some_iff] at hb
      rw [← hb, isDelimiter_iff (c := c) (by simp [e]) hx, not_or]
      exact h d rfl
  · exact commentLength?_append hbs depth n (encode cs)

private theorem commentLength?_encode (depth n : Nat) (cs : List Char) :
    Piece.commentLength? depth n (encode cs) = (comment? depth cs).map fun w => n + (encode w).length := by
  fun_induction comment? depth cs generalizing n with
  | case1 => rfl
  | case2 depth c => exact commentLength?_encode_cons (by simp) depth n
  | case3 depth c d cs h ih =>
    obtain ⟨rfl, rfl⟩ := h
    have e : encode ('/' :: '*' :: cs) = Byte.slash :: Byte.star :: encode cs := rfl
    rw [e, Piece.commentLength?_open, ih, Option.map_map]
    congr 1
    funext w
    have hl : (encode ('/' :: '*' :: w)).length = (encode w).length + 2 := rfl
    rw [Function.comp_apply, hl]
    omega
  | case4 c d cs h h' =>
    obtain ⟨rfl, rfl⟩ := h'
    exact Piece.commentLength?_close 0 n (encode cs)
  | case5 depth c d cs h h' h0 ih =>
    obtain ⟨rfl, rfl⟩ := h'
    have e : encode ('*' :: '/' :: cs) = Byte.star :: Byte.slash :: encode cs := rfl
    rw [e, Piece.commentLength?_close, if_neg h0, ih, Option.map_map]
    congr 1
    funext w
    have hl : (encode ('*' :: '/' :: w)).length = (encode w).length + 2 := rfl
    rw [Function.comp_apply, hl]
    omega
  | case6 depth c d cs h h' ih =>
    have hd : ∀ x ∈ (d :: cs).head?, ¬ (c = '/' ∧ x = '*') ∧ ¬ (c = '*' ∧ x = '/') := by
      rintro x ⟨⟩
      exact ⟨h, h'⟩
    rw [commentLength?_encode_cons hd, ih, Option.map_map]
    congr 1
    funext w
    rw [Function.comp_apply, Text.length_encode_cons, Nat.add_assoc]

theorem ofBytes?_encode (cs : List Char) : Mark.ofBytes? (encode cs) = markOf? cs := by
  ext m
  rw [Mark.ofBytes?_eq_some_iff, markOf?_eq_some_iff, Mark.bytes, ← Text.bytes_ofList_eq_encode, Text.bytes_inj]

private theorem ofBytes?_eq_none {bs : List UInt8} {b : UInt8} (hb : b ∈ bs) (h : ¬ b < 0x80) :
    Mark.ofBytes? bs = none := by
  rw [Option.eq_none_iff_forall_ne_some]
  intro m hm
  refine h (m.lt_of_mem_bytes b ?_)
  rwa [Mark.ofBytes?_eq_some_iff.1 hm]

private theorem longest?_eq_none {b : UInt8} (h : ¬ b < 0x80) (r : List UInt8) : Mark.longest? (b :: r) = none := by
  rw [Mark.longest?, ofBytes?_eq_none (b := b) (by simp) h, ofBytes?_eq_none (b := b) (by simp) h, Option.or_none]

private theorem longest?_encode (c : Char) (cs : List Char) : Mark.longest? (encode (c :: cs)) = mark? (c :: cs) := by
  rcases Text.utf8EncodeChar_cases c with ⟨-, e⟩ | ⟨hc, hbs⟩
  · have h1 : Mark.ofBytes? ((encode (c :: cs)).take 1) = markOf? ((c :: cs).take 1) := by
      rw [← ofBytes?_encode]
      simp [Text.encode_cons, e]
    have h2 : Mark.ofBytes? ((encode (c :: cs)).take 2) = markOf? ((c :: cs).take 2) := by
      cases cs with
      | nil =>
        rw [← ofBytes?_encode]
        simp [Text.encode_cons, e]
      | cons d cs =>
        rcases Text.utf8EncodeChar_cases d with ⟨-, e'⟩ | ⟨hd, hds⟩
        · rw [← ofBytes?_encode]
          simp [Text.encode_cons, e, e']
        · -- no mark has a byte or character beyond ASCII
          obtain ⟨x, xs, hx, e'⟩ := Text.exists_encode_eq_cons d cs
          rw [markOf?_eq_none (c := d) (by simp) hd, Text.encode_cons, e, e']
          exact ofBytes?_eq_none (b := x) (by simp) (hds x hx)
    rw [Mark.longest?, mark?, h1, h2]
  · obtain ⟨x, xs, hx, e⟩ := Text.exists_encode_eq_cons c cs
    rw [e, longest?_eq_none (hbs x hx), mark?_eq_none hc]

/-! ### The first segment and its pieces -/

/-- The shape of the piece that a segment is; `none` for a stray character, each byte of which is a piece. -/
def Shape.piece? : Shape → Option Piece.Shape
  | .mark m => some (.mark m)
  | .word => some .word
  | .number => some .number
  | .string => some .string
  | .blank => some .blank
  | .lineComment => some .lineComment
  | .blockComment => some .blockComment
  | .stray => none
  | .openString => some .openString
  | .openComment => some .openComment

private theorem Shape.piece?_eq_none_iff {s : Shape} : s.piece? = none ↔ s = .stray := by
  cases s <;> simp [piece?]

/-- The pieces that the bytes of a segment are. -/
def pieces (s : Segment) : List Piece :=
  match s.shape.piece? with
  | some t => [⟨t, encode s.chars⟩]
  | none => (encode s.chars).map fun b => ⟨.stray b, [b]⟩

private theorem quote_mem_encode {cs : List Char} : Byte.quote ∈ encode cs ↔ '"' ∈ cs := by
  rw [encode, List.mem_flatMap]
  constructor
  · rintro ⟨c, hc, hb⟩
    rwa [((agrees_beq Byte.quote '"' (by decide)).eq_iff hb).1 rfl] at hc
  · exact fun h => ⟨_, h, List.mem_singleton.2 rfl⟩

/-- The bytes of two characters that begin no comment begin none. -/
private theorem noComment_encode {c : Char} {b : UInt8} (hb : b ∈ String.utf8EncodeChar c) {cs : List Char}
    (h : ¬ (c = '/' ∧ cs.head? = some '/')) (h' : ¬ (c = '/' ∧ cs.head? = some '*')) :
    Piece.NoComment b (encode cs) := by
  have hslash := agrees_beq Byte.slash '/' (by decide)
  have hstar := agrees_beq Byte.star '*' (by decide)
  intro hs x hx
  have hc := (hslash.eq_iff hb).1 hs
  cases cs with
  | nil => cases hx
  | cons d cs =>
    obtain ⟨y, ys, hd, e⟩ := Text.exists_encode_eq_cons d cs
    rw [e, List.head?_cons, Option.mem_some_iff] at hx
    rw [hx] at hd
    constructor
    · rintro rfl
      exact h ⟨hc, congrArg some ((hslash.eq_iff hd).1 rfl)⟩
    · rintro rfl
      exact h' ⟨hc, congrArg some ((hstar.eq_iff hd).1 rfl)⟩

/-- The first byte of an ASCII character is cut off together with the bytes of the first segment. -/
theorem cut_encode {c : Char} {b : UInt8} (hb : String.utf8EncodeChar c = [b]) (cs : List Char) :
    Piece.cut b (encode cs) =
      ((first c cs).shape.piece?.getD (.stray b), (encode (first c cs).chars).length) := by
  have hm : b ∈ String.utf8EncodeChar c := by simp [hb]
  have e : b :: encode cs = encode (c :: cs) := by rw [Text.encode_cons, hb, List.singleton_append]
  have h1 := agrees_isBlank c b hm
  have h2 := agrees_isDigit c b hm
  have h3 := agrees_isWordStart c b hm
  have hquote := agrees_beq Byte.quote '"' (by decide)
  have hnewline := agrees_beq Byte.newline '\n' (by decide)
  have h4 := hquote.eq_iff hm
  have h5 := (agrees_beq Byte.slash '/' (by decide)).eq_iff hm
  -- a case for each branch of the character rules, `a1`, `a2`, … being its conditions
  fun_cases first c cs with
  | case1 a1 =>
    rw [Piece.cut_of_isBlank (h1.trans a1), Text.encode_cons, hb]
    rfl
  | case2 a1 a2 =>
    rw [Piece.cut_of_isDigit (h2.trans a2), e, numeralLength_encode]
    rfl
  | case3 a1 a2 a3 =>
    rw [Piece.cut_of_isWordStart (h3.trans a3), e, agrees_isWordByte.takeWhile_encode]
    rfl
  | case4 a1 a2 a3 a4 a5 =>
    have hl (w : List Char) : (encode (c :: (w ++ ['"']))).length = (encode w).length + 2 := by
      rw [← List.cons_append, Text.encode_append, List.length_append, Text.encode_cons, hb]
      rfl
    rw [h4.2 a4, Piece.cut_quote, if_pos (quote_mem_encode.2 a5), hquote.bne.takeWhile_encode, hl]
    rfl
  | case5 a1 a2 a3 a4 a5 =>
    rw [← e, h4.2 a4, Piece.cut_quote, if_neg (mt quote_mem_encode.1 a5)]
    rfl
  | case6 a1 a2 a3 a4 a5 =>
    obtain ⟨rfl, h⟩ := a5
    obtain ⟨t, rfl⟩ := List.head?_eq_some_iff.1 h
    have ht : encode ('/' :: t) = Byte.slash :: encode t := rfl
    rw [h5.2 rfl] at e ⊢
    rw [ht, Piece.cut_slash_slash, ← ht, e, hnewline.bne.takeWhile_encode]
    rfl
  | case7 a1 a2 a3 a4 a5 a6 w hw =>
    obtain ⟨rfl, h⟩ := a6
    obtain ⟨t, rfl⟩ := List.head?_eq_some_iff.1 h
    have ht : encode ('*' :: t) = Byte.star :: encode t := rfl
    rw [List.tail_cons] at hw
    rw [h5.2 rfl, ht, Piece.cut_slash_star, commentLength?_encode, hw, Option.map_some, Nat.add_comm]
    rfl
  | case8 a1 a2 a3 a4 a5 a6 hw =>
    obtain ⟨rfl, h⟩ := a6
    obtain ⟨t, rfl⟩ := List.head?_eq_some_iff.1 h
    have ht : encode ('*' :: t) = Byte.star :: encode t := rfl
    rw [List.tail_cons] at hw
    rw [h5.2 rfl, ht, Piece.cut_slash_star, commentLength?_encode, hw, Option.map_none]
    rfl
  | case9 a1 a2 a3 a4 a5 a6 m h =>
    rw [Piece.cut_of_other (h1.trans (Bool.eq_false_iff.2 a1)) (h2.trans (Bool.eq_false_iff.2 a2))
      (h3.trans (Bool.eq_false_iff.2 a3)) (mt h4.1 a4) (noComment_encode hm a5 a6), e, longest?_encode, h,
      ← Text.bytes_eq_encode]
    rfl
  | case10 a1 a2 a3 a4 a5 a6 h =>
    rw [Piece.cut_of_other (h1.trans (Bool.eq_false_iff.2 a1)) (h2.trans (Bool.eq_false_iff.2 a2))
      (h3.trans (Bool.eq_false_iff.2 a3)) (mt h4.1 a4) (noComment_encode hm a5 a6), e, longest?_encode, h,
      Text.encode_cons, hb]
    rfl

/-! ### All segments and all pieces -/

private theorem cut_of_not_ascii {b : UInt8} (h : ¬ b < 0x80) (r : List UInt8) : Piece.cut b r = (.stray b, 1) := by
  have h1 : Byte.isBlank b = false := Bool.eq_false_iff.2 fun hb => h (Piece.isBlank_lt hb)
  have h2 : Byte.isWordByte b = false := Bool.eq_false_iff.2 fun hb => h (Piece.isWordByte_lt hb)
  rw [Byte.isWordByte, Bool.or_eq_false_iff] at h2
  have h3 : b ≠ Byte.quote := by
    rintro rfl
    exact h (by decide)
  have h4 : Piece.NoComment b r := by
    rintro rfl
    exact absurd (by decide) h
  rw [Piece.cut_of_other h1 h2.2 h2.1 h3 h4, longest?_eq_none h]

/-- Bytes of characters beyond ASCII, outside strings and comments, are stray bytes. -/
private theorem ofBytes_append_of_not_ascii {bs : List UInt8} (h : ∀ b ∈ bs, ¬ b < 0x80) (r : List UInt8) :
    Piece.ofBytes (bs ++ r) = (bs.map fun b => ⟨.stray b, [b]⟩) ++ Piece.ofBytes r := by
  induction bs with
  | nil => rfl
  | cons b bs ih =>
    rw [List.forall_mem_cons] at h
    rw [List.cons_append, Piece.ofBytes_cons, Piece.first, Piece.rest, cut_of_not_ascii h.1, List.drop_one,
      List.tail_cons, ih h.2]
    rfl

private theorem pieces_first {c : Char} {b : UInt8} (hb : String.utf8EncodeChar c = [b]) (cs : List Char) :
    (first c cs).pieces = [⟨(first c cs).shape.piece?.getD (.stray b), encode (first c cs).chars⟩] := by
  rw [pieces]
  cases h : (first c cs).shape.piece? with
  | some t => rfl
  | none =>
    rw [(first_of_stray (Shape.piece?_eq_none_iff.1 h)).1, Text.encode_cons, hb]
    rfl

/-- The pieces of the bytes are the pieces of the segments. -/
theorem ofBytes_encode (cs : List Char) : Piece.ofBytes (encode cs) = (ofChars cs).flatMap pieces := by
  -- one segment is one cut if it begins with an ASCII character, and a cut for each byte if it does not
  fun_induction ofChars cs with
  | case1 => simp
  | case2 c cs ih =>
    rw [List.flatMap_cons, ← ih]
    rcases Text.utf8EncodeChar_cases c with ⟨-, e⟩ | ⟨hc, hbs⟩
    · have hcs : UInt8.ofNat c.toNat :: encode cs = encode (first c cs).chars ++ encode (rest c cs) := by
        rw [← Text.encode_append, chars_first_append_rest, Text.encode_cons, e, List.singleton_append]
      rw [Text.encode_cons, e, List.singleton_append, Piece.ofBytes_cons, Piece.first, Piece.rest, cut_encode e,
        pieces_first e, hcs, List.take_left, List.drop_left]
      rfl
    · have hr : rest c cs = cs := by
        rw [rest, first_of_not_ascii hc]
        rfl
      rw [Text.encode_cons, ofBytes_append_of_not_ascii hbs, first_of_not_ascii hc, hr, pieces]
      simp [Shape.piece?, Text.encode_cons]

/-! ### The two scans -/

private theorem count_encode (cs : List Char) : (encode cs).count Byte.newline = cs.count '\n' := by
  induction cs with
  | nil => rfl
  | cons c cs ih =>
    rw [Text.encode_cons, List.count_append, ih]
    by_cases hc : c = '\n'
    · rw [hc, List.count_cons_self, Nat.add_comm]
      rfl
    · have hn : Byte.newline ∉ String.utf8EncodeChar c := by
        intro h
        exact hc (((agrees_beq Byte.newline '\n' (by decide)).eq_iff h).1 rfl)
      rw [List.count_cons_of_ne hc, List.count_eq_zero.2 hn, Nat.zero_add]

private theorem token?_string (line : Nat) (w : List Char) :
    Piece.token? line ⟨.string, encode ('"' :: (w ++ ['"']))⟩ =
      some ⟨.string, String.ofList ('"' :: (w ++ ['"'])), some (.text (String.ofList w)), line⟩ := by
  have e : encode ('"' :: (w ++ ['"'])) = Byte.quote :: (encode w ++ [Byte.quote]) := by
    rw [← List.cons_append, Text.encode_append]
    rfl
  have h := Text.ofBytes?_encode ('"' :: (w ++ ['"']))
  rw [e] at h ⊢
  simp [Piece.token?, h, Text.ofBytes?_encode]

/-- A segment that is one piece stands for the same token as the piece. -/
private theorem token?_encode {c : Char} {cs : List Char} {t : Piece.Shape} (ht : (first c cs).shape.piece? = some t)
    (line : Nat) : Piece.token? line ⟨t, encode (first c cs).chars⟩ = (first c cs).token? line := by
  have hq := @exists_chars_of_string c cs
  generalize first c cs = s at ht hq ⊢
  obtain ⟨shape, ds⟩ := s
  have h := Text.ofBytes?_encode ds
  cases shape with
  | number =>
    cases ht
    simp only [Piece.token?, token?, h, Text.bytes_ofList_eq_encode]
    cases Numeral.ofBytes? (encode ds) <;> rfl
  | string =>
    cases ht
    obtain ⟨w, rfl⟩ := hq rfl
    rw [token?_string, token?]
    simp
  | stray => cases ht
  | mark | word =>
    cases ht
    simp [Piece.token?, token?, h]
  | _ =>
    cases ht
    rfl

/-- A segment that is one piece stands for the same error as the piece. -/
private theorem error?_encode {s : Segment} {t : Piece.Shape} (ht : s.shape.piece? = some t) (line : Nat) :
    (Piece.error? line ⟨t, encode s.chars⟩).toList = s.errors line := by
  obtain ⟨shape, ds⟩ := s
  cases shape with
  | stray => cases ht
  | _ =>
    cases ht
    rfl

/-- The pieces of a stray character add an error for each of its bytes, on the current line. -/
private theorem foldl_step_stray {bs : List UInt8} (h : Byte.newline ∉ bs) (scan : Scan) :
    (bs.map fun b => (⟨.stray b, [b]⟩ : Piece)).foldl Scan.step scan =
      ⟨scan.line, scan.tokens, scan.errors ++ (bs.map (.strayByte scan.line)).toArray⟩ := by
  induction bs generalizing scan with
  | nil => simp
  | cons b bs ih =>
    rw [List.mem_cons, not_or] at h
    have hn : Piece.newlines ⟨.stray b, [b]⟩ = 0 := List.count_eq_zero.2 (by simpa using h.1)
    rw [List.map_cons, List.foldl_cons, ih h.2, Scan.step_eq, hn]
    simp [Piece.token?, Piece.error?]

/-- A segment does to a scan what its pieces do. -/
private theorem foldl_step_pieces (c : Char) (cs : List Char) (scan : Scan) :
    (first c cs).pieces.foldl Scan.step scan = step scan (first c cs) := by
  rw [pieces]
  cases ht : (first c cs).shape.piece? with
  | some t =>
    have hn : Piece.newlines ⟨t, encode (first c cs).chars⟩ = (first c cs).newlines := count_encode _
    rw [List.foldl_cons, List.foldl_nil, Scan.step_eq, hn, token?_encode ht, error?_encode ht]
    rfl
  | none =>
    obtain ⟨hs, hn⟩ := first_of_stray (Shape.piece?_eq_none_iff.1 ht)
    have hbs : Byte.newline ∉ encode [c] := by
      rw [← List.count_eq_zero, count_encode]
      exact hn
    rw [hs, foldl_step_stray hbs, step, hn]
    simp [token?, errors]

/-- Reading a script byte by byte and reading it character by character give the same scan. -/
theorem ofSource_eq_scan (source : String) : Scan.ofSource source = scan source := by
  rw [Scan.ofSource, scan, Text.bytes_eq_encode, ofBytes_encode, List.foldl_flatMap]
  apply List.foldl_ext
  intro scan s hs
  obtain ⟨c, cs, rfl⟩ := exists_first_of_mem_ofChars hs
  exact foldl_step_pieces c cs scan

end Segment

/-! ### The character scanner -/

/-- `tokenize`, with the script read character by character. -/
def tokenizeChars {σ : Type} [Sink σ LexicalError] (source : String) (sink : σ) : TokenStream × σ :=
  let scan := Segment.scan source
  (⟨scan.tokens, scan.line⟩, Sink.receiveAll sink scan.errors)

namespace Segment

private theorem exists_foldl_step (ss : List Segment) (scan : Scan) :
    ∃ ts es, ss.foldl step scan =
      ⟨scan.line + (ss.flatMap chars).count '\n', scan.tokens ++ ts, scan.errors ++ es⟩ := by
  induction ss generalizing scan with
  | nil => exact ⟨#[], #[], by simp⟩
  | cons s ss ih =>
    obtain ⟨ts, es, h⟩ := ih (step scan s)
    rw [List.foldl_cons, h, step, newlines]
    exact ⟨_, _, by rw [List.flatMap_cons, List.count_append, Nat.add_assoc, Array.append_assoc, Array.append_assoc]⟩

private theorem errors_eq (source : String) :
    (tokenize source ({} : Storage LexicalError)).2.errors.toList = (scan source).errors.toList := by
  have h := Storage.receiveAll_eq {} (scan source).errors.toList
  rw [Array.toArray_toList] at h
  rw [tokenize, ofSource_eq_scan, h, Array.empty_append]

/-- The errors of a segment come after those of the segments before it. -/
private theorem exists_errors_append {source : String} {before after : List Segment} {s : Segment}
    (h : ofChars source.toList = before ++ s :: after) :
    ∃ es, (tokenize source ({} : Storage LexicalError)).2.errors.toList =
      (before.foldl step {}).errors.toList ++
        s.errors (1 + (before.flatMap chars).count '\n' + s.newlines) ++ es := by
  obtain ⟨ts, es, hb⟩ := exists_foldl_step before {}
  obtain ⟨ts', es', ha⟩ := exists_foldl_step after (step (before.foldl step {}) s)
  refine ⟨es'.toList, ?_⟩
  rw [errors_eq, scan, h, List.foldl_append, List.foldl_cons, ha, step, hb]
  simp

/-- A stray character has all its bytes on one line. -/
private theorem errors_stray {cs : List Char} {c : Char} (h : ⟨.stray, [c]⟩ ∈ ofChars cs) (line : Nat) :
    errors (line + newlines ⟨.stray, [c]⟩) ⟨.stray, [c]⟩ = (String.utf8EncodeChar c).map (.strayByte line) := by
  obtain ⟨d, ds, hd⟩ := exists_first_of_mem_ofChars h
  obtain ⟨hs, hn⟩ := @first_of_stray d ds (by rw [← hd])
  obtain rfl : c = d := by simpa [hs] using hd
  rw [hn, Nat.add_zero, errors, Text.encode_cons, Text.encode_nil, List.append_nil]

private theorem exists_errors_append_stray {source : String} {before after : List Segment} {c : Char}
    (h : ofChars source.toList = before ++ ⟨.stray, [c]⟩ :: after) :
    ∃ es, (tokenize source ({} : Storage LexicalError)).2.errors.toList =
      (before.foldl step {}).errors.toList ++
        (String.utf8EncodeChar c).map (.strayByte (1 + (before.flatMap chars).count '\n')) ++ es := by
  have hm : ⟨.stray, [c]⟩ ∈ ofChars source.toList := by
    rw [h]
    exact List.mem_append_right before List.mem_cons_self
  rw [← errors_stray hm]
  exact exists_errors_append h

private theorem closed_of_errors_eq_nil {s : Segment} (ht : s.shape.isText) {line : Nat} (h : s.errors line = []) :
    s.shape = .string ∨ s.shape = .lineComment ∨ s.shape = .blockComment := by
  obtain ⟨shape, cs⟩ := s
  cases shape with
  | string => exact Or.inl rfl
  | lineComment => exact Or.inr (Or.inl rfl)
  | blockComment => exact Or.inr (Or.inr rfl)
  | openString | openComment => cases h
  | _ => cases ht

/-- In a script without errors, characters beyond ASCII are in strings and closed comments. -/
private theorem closed_of_no_errors {source : String}
    (he : (tokenize source ({} : Storage LexicalError)).2.errors.toList = []) {s : Segment}
    (hs : s ∈ ofChars source.toList) {c : Char} (hc : c ∈ s.chars) (h : ¬ c.toNat < 0x80) :
    s.shape = .string ∨ s.shape = .lineComment ∨ s.shape = .blockComment := by
  obtain ⟨before, after, hsplit⟩ := List.append_of_mem hs
  obtain ⟨es, h'⟩ := exists_errors_append hsplit
  rw [he, eq_comm, List.append_eq_nil_iff, List.append_eq_nil_iff] at h'
  rcases isText_or_stray hs hc h with ht | rfl
  · exact closed_of_errors_eq_nil ht h'.1.2
  · obtain ⟨b, hb⟩ := Text.exists_mem_utf8EncodeChar c
    rw [errors_stray hs, List.map_eq_nil_iff] at h'
    rw [h'.1.2] at hb
    cases hb

end Segment

/-- Reading a script byte by byte and reading it character by character come to the same: tokens and errors are the
same, and the pieces of the bytes are those of the segments of the characters.  A character beyond ASCII is in a string
or comment, or it is stray and gives one error for each of its bytes, on the line on which it stands.  Which characters
beyond ASCII stand where they stand does not matter for the ends of segments, and in a script without errors they are
all in strings and closed comments. -/
theorem tokenize_eq_tokenizeChars {σ : Type} [Sink σ LexicalError] (source : String) (sink : σ) :
    tokenize source sink = tokenizeChars source sink ∧
      (Segment.ofChars source.toList).flatMap Segment.chars = source.toList ∧
      Piece.ofBytes (Text.bytes source) = (Segment.ofChars source.toList).flatMap Segment.pieces ∧
      (∀ s ∈ Segment.ofChars source.toList, ∀ c ∈ s.chars, ¬ c.toNat < 0x80 →
        s.shape.isText ∨ s = ⟨.stray, [c]⟩) ∧
      (∀ before c after, Segment.ofChars source.toList = before ++ ⟨.stray, [c]⟩ :: after →
        ∃ es, (tokenize source ({} : Storage LexicalError)).2.errors.toList =
          (before.foldl Segment.step {}).errors.toList ++
            (String.utf8EncodeChar c).map (.strayByte (1 + (before.flatMap Segment.chars).count '\n')) ++ es) ∧
      (∀ f, Segment.KeepsAscii f →
        Segment.ofChars (source.toList.map f) = (Segment.ofChars source.toList).map (Segment.map f)) ∧
      ((tokenize source ({} : Storage LexicalError)).2.errors.toList = [] →
        ∀ s ∈ Segment.ofChars source.toList, ∀ c ∈ s.chars, ¬ c.toNat < 0x80 →
          s.shape = .string ∨ s.shape = .lineComment ∨ s.shape = .blockComment) := by
  refine ⟨?_, Segment.flatMap_chars_ofChars _, ?_, fun _ hs _ hc h => Segment.isText_or_stray hs hc h,
    fun _ _ _ h => Segment.exists_errors_append_stray h, fun _ hf => Segment.ofChars_map hf _,
    fun he _ hs _ hc h => Segment.closed_of_no_errors he hs hc h⟩
  · rw [tokenize, tokenizeChars, Segment.ofSource_eq_scan]
  · rw [Text.bytes_eq_encode, Segment.ofBytes_encode]

/-- A script without errors, other letters in it, and a script with a stray letter. -/
theorem tokenize_eq_tokenizeChars_letters :
    ((tokenize "\"é\" // ü" ({} : Storage LexicalError)).2.errors.toList = [] ∧
      ∀ s ∈ Segment.ofChars "\"é\" // ü".toList, ∀ c ∈ s.chars, ¬ c.toNat < 0x80 →
        s.shape = .string ∨ s.shape = .lineComment ∨ s.shape = .blockComment) ∧
    (Segment.KeepsAscii (fun c => if c.toNat < 0x80 then c else '€') ∧
      Segment.ofChars ("\"é\" // ü".toList.map fun c => if c.toNat < 0x80 then c else '€') =
        (Segment.ofChars "\"é\" // ü".toList).map (Segment.map fun c => if c.toNat < 0x80 then c else '€')) ∧
    (Segment.ofChars "1é".toList = [⟨.number, ['1']⟩] ++ ⟨.stray, ['é']⟩ :: [] ∧
      ∃ es, (tokenize "1é" ({} : Storage LexicalError)).2.errors.toList =
        ([⟨.number, ['1']⟩].foldl Segment.step {}).errors.toList ++
          (String.utf8EncodeChar 'é').map (.strayByte (1 + ['1'].count '\n')) ++ es) := by
  have he : (tokenize "\"é\" // ü" ({} : Storage LexicalError)).2.errors.toList = [] := by
    decide +kernel
  have hf : Segment.KeepsAscii (fun c => if c.toNat < 0x80 then c else '€') := by
    refine ⟨fun c hc => if_pos hc, fun c hc => ?_⟩
    rw [if_neg hc]
    decide
  have hs : Segment.ofChars "1é".toList = [⟨.number, ['1']⟩] ++ ⟨.stray, ['é']⟩ :: [] := by
    decide +kernel
  have h := (tokenize_eq_tokenizeChars "\"é\" // ü" ({} : Storage LexicalError)).2.2.2.2.2
  have h' := (tokenize_eq_tokenizeChars "1é" ({} : Storage LexicalError)).2.2.2.2.1
  exact ⟨⟨he, h.2 he⟩, ⟨hf, h.1 _ hf⟩, ⟨hs, h' _ _ _ hs⟩⟩

end ScriptLexer
