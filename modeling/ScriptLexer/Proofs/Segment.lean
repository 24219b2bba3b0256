import ScriptLexer.Scan
import ScriptLexer.Proofs.Encoding

/-!
# Reading a script character by character

`Segment.ofChars` cuts the characters of a script into segments by the rules by which `Piece.ofBytes` cuts its bytes
into pieces, and `Segment.scan` collects their tokens and errors.  A character beyond ASCII is in none of the classes
and starts no segment but that of a stray character, which is reported byte by byte.  The key facts: only strings and
comments contain such characters besides (`isText_or_stray`), and other characters beyond ASCII in their place leave
all segments where they are (`ofChars_map`).
-/

namespace ScriptLexer

/-- What a segment of a script can be. -/
inductive Segment.Shape where
  | mark (m : Mark)
  | word
  | number
  | string
  | blank
  | lineComment
  | blockComment
  /-- A character that starts no other segment. -/
  | stray
  | openString
  | openComment
deriving DecidableEq, Repr

/-- A segment of a script. -/
structure Segment where
  shape : Segment.Shape
  chars : List Char
deriving DecidableEq, Repr

namespace Segment

/-! ### The rules -/

def isBlank (c : Char) : Bool :=
  c == ' ' || c == '\t' || c == '\r' || c == '\n'

def isWordStart (c : Char) : Bool :=
  c.isAlpha || c == '_'

def isWordChar (c : Char) : Bool :=
  isWordStart c || c.isDigit

/-- The numeral at the start of the characters.  A point belongs to it only if a digit follows. -/
def numeral (cs : List Char) : List Char :=
  let whole := cs.takeWhile Char.isDigit
  match cs.dropWhile Char.isDigit with
  | [] => whole
  | d :: ds =>
    let fraction := ds.takeWhile Char.isDigit
    if d == '.' && !fraction.isEmpty then whole ++ d :: fraction else whole

/-- The characters up to the end of a block comment, or `none` if it is not closed.  `depth` counts the open comments
around the innermost one. -/
def comment? (depth : Nat) : List Char → Option (List Char)
  | [] => none
  | [_] => none
  | c :: d :: cs =>
    if c = '/' ∧ d = '*' then (comment? (depth + 1) cs).map fun w => c :: d :: w
    else if c = '*' ∧ d = '/' then
      if depth = 0 then some [c, d] else (comment? (depth - 1) cs).map fun w => c :: d :: w
    else (comment? depth (d :: cs)).map fun w => c :: w

/-- The mark with the given spelling. -/
def markOf? (cs : List Char) : Option Mark :=
  Mark.all.find? (·.spelling == String.ofList cs)

/-- The longest mark that the characters start with. -/
def mark? (cs : List Char) : Option Mark :=
  (markOf? (cs.take 2)).or (markOf? (cs.take 1))

/-- The first segment of `c :: cs`. -/
def first (c : Char) (cs : List Char) : Segment :=
  if isBlank c then ⟨.blank, [c]⟩
  else if c.isDigit then ⟨.number, numeral (c :: cs)⟩
  else if isWordStart c then ⟨.word, (c :: cs).takeWhile isWordChar⟩
  else if c = '"' then
    if '"' ∈ cs then ⟨.string, c :: (cs.takeWhile (· != '"') ++ ['"'])⟩ else ⟨.openString, c :: cs⟩
  else if c = '/' ∧ cs.head? = some '/' then ⟨.lineComment, (c :: cs).takeWhile (· != '\n')⟩
  else if c = '/' ∧ cs.head? = some '*' then
    match comment? 0 cs.tail with
    | some w => ⟨.blockComment, '/' :: '*' :: w⟩
    | none => ⟨.openComment, c :: cs⟩
  else
    match mark? (c :: cs) with
    | some m => ⟨.mark m, m.spelling.toList⟩
    | none => ⟨.stray, [c]⟩

/-- The characters of `c :: cs` after its first segment. -/
def rest (c : Char) (cs : List Char) : List Char :=
  (c :: cs).drop (first c cs).chars.length

/-! ### What a segment stands for -/

/-- The number of line feeds in a segment. -/
def newlines (s : Segment) : Nat :=
  s.chars.count '\n'

/-- The token that a segment stands for; `line` is the line on which the segment ends. -/
def token? (line : Nat) (s : Segment) : Option Token :=
  let lexeme := String.ofList s.chars
  match s.shape with
  | .mark m => some ⟨.mark m, lexeme, none, line⟩
  | .word => some ⟨.ofWord lexeme, lexeme, none, line⟩
  | .number => (Numeral.ofBytes? (Text.bytes lexeme)).map fun n => ⟨.number, lexeme, some (.number n.toBinary64), line⟩
  | .string => some ⟨.string, lexeme, some (.text (String.ofList s.chars.tail.dropLast)), line⟩
  | _ => none

/-- The errors that a segment stands for; `line` is the line on which the segment ends.  A stray character gives one
error for each of its bytes. -/
def errors (line : Nat) (s : Segment) : List LexicalError :=
  match s.shape with
  | .stray => (Text.encode s.chars).map (.strayByte line)
  | .openString => [.openString line]
  | .openComment => [.openComment line]
  | _ => []

/-- The scan with one more segment. -/
def step (scan : Scan) (s : Segment) : Scan :=
  let line := scan.line + s.newlines
  ⟨line, scan.tokens ++ (s.token? line).toList.toArray, scan.errors ++ (s.errors line).toArray⟩

/-! ### The first segment -/

theorem markOf?_eq_some_iff {cs : List Char} {m : Mark} : markOf? cs = some m ↔ m.spelling = String.ofList cs := by
  constructor
  · intro h
    simpa using List.find?_some h
  · intro h
    rw [markOf?, ← h]
    cases m <;> decide

private theorem spelling_isPrefix_of_mark? {cs : List Char} {m : Mark} (h : mark? cs = some m) :
    m.spelling.toList <+: cs := by
  rcases Option.or_eq_some_iff.1 h with h | ⟨-, h⟩
  all_goals
    rw [markOf?_eq_some_iff.1 h, String.toList_ofList]
    exact List.take_prefix _ _

private theorem spelling_ne_nil (m : Mark) : m.spelling.toList ≠ [] := by
  cases m <;> decide

private theorem numeral_isPrefix (cs : List Char) : numeral cs <+: cs := by
  have e := List.takeWhile_append_dropWhile (p := Char.isDigit) (l := cs)
  fun_cases numeral cs with
  | case2 whole d ds h fraction hd =>
    rw [h] at e
    refine ⟨ds.dropWhile Char.isDigit, ?_⟩
    rw [List.append_assoc, List.cons_append, List.takeWhile_append_dropWhile]
    exact e
  | _ => exact List.takeWhile_prefix _

private theorem numeral_ne_nil {c : Char} (h : c.isDigit) (cs : List Char) : numeral (c :: cs) ≠ [] := by
  have hw : (c :: cs).takeWhile Char.isDigit ≠ [] := by simp [h]
  fun_cases numeral (c :: cs) with
  | case2 => exact List.append_ne_nil_of_left_ne_nil hw _
  | _ => exact hw

private theorem comment?_isPrefix {depth : Nat} {cs w : List Char} (h : comment? depth cs = some w) : w <+: cs := by
  fun_induction comment? depth cs generalizing w with
  | case1 => cases h
  | case2 => cases h
  | case4 c d cs hc hd =>
    cases h
    exact ⟨cs, rfl⟩
  | case3 depth c d cs _ ih | case5 depth c d cs _ _ _ ih =>
    obtain ⟨v, hv, rfl⟩ := Option.map_eq_some_iff.1 h
    exact List.prefix_append_right_inj [c, d] |>.2 (ih hv)
  | case6 depth c d cs _ _ ih =>
    obtain ⟨v, hv, rfl⟩ := Option.map_eq_some_iff.1 h
    exact List.prefix_append_right_inj [c] |>.2 (ih hv)

private theorem exists_dropWhile_eq_cons {x : Char} {cs : List Char} (h : x ∈ cs) :
    ∃ t, cs.dropWhile (· != x) = x :: t := by
  induction cs with
  | nil => cases h
  | cons c cs ih =>
    by_cases hc : c = x
    · exact ⟨cs, by simp [hc]⟩
    · rw [List.mem_cons, or_iff_right (Ne.symm hc)] at h
      obtain ⟨t, ht⟩ := ih h
      exact ⟨t, by simp [hc, ht]⟩

private theorem string_isPrefix {cs : List Char} (h : '"' ∈ cs) : cs.takeWhile (· != '"') ++ ['"'] <+: cs := by
  obtain ⟨t, ht⟩ := exists_dropWhile_eq_cons h
  refine ⟨t, ?_⟩
  rw [List.append_assoc, List.singleton_append, ← ht, List.takeWhile_append_dropWhile]

/-- The first segment stands at the start of the characters. -/
private theorem chars_first_isPrefix (c : Char) (cs : List Char) : (first c cs).chars <+: c :: cs := by
  fun_cases first c cs with
  | case1 | case10 => exact ⟨cs, rfl⟩
  | case2 => exact numeral_isPrefix _
  | case3 | case6 => exact List.takeWhile_prefix _
  | case4 _ _ _ _ h => exact List.prefix_append_right_inj [c] |>.2 (string_isPrefix h)
  | case5 | case8 => exact List.prefix_rfl
  | case7 _ _ _ _ _ h w hw =>
    obtain ⟨rfl, h⟩ := h
    obtain ⟨t, rfl⟩ := List.head?_eq_some_iff.1 h
    exact List.prefix_append_right_inj ['/', '*'] |>.2 (comment?_isPrefix hw)
  | case9 _ _ _ _ _ _ m h => exact spelling_isPrefix_of_mark? h

private theorem chars_first_ne_nil (c : Char) (cs : List Char) : (first c cs).chars ≠ [] := by
  fun_cases first c cs with
  | case2 _ h => exact numeral_ne_nil h cs
  | case3 _ _ h => simp [isWordChar, h]
  | case6 _ _ _ _ h => simp [h.1]
  | case9 _ _ _ _ _ _ m => exact spelling_ne_nil m
  | _ => exact List.cons_ne_nil _ _

theorem chars_first_append_rest (c : Char) (cs : List Char) : (first c cs).chars ++ rest c cs = c :: cs := by
  obtain ⟨t, ht⟩ := chars_first_isPrefix c cs
  have hr : rest c cs = t := by
    rw [rest, ← ht, List.drop_left]
  rw [hr, ht]

theorem length_rest_lt (c : Char) (cs : List Char) : (rest c cs).length < (c :: cs).length := by
  have hl := List.length_pos_iff.2 (chars_first_ne_nil c cs)
  rw [← chars_first_append_rest c cs, List.length_append]
  omega

/-! ### All segments -/

/-- Cuts the characters into segments. -/
def ofChars : List Char → List Segment
  | [] => []
  | c :: cs => first c cs :: ofChars (rest c cs)
termination_by cs => cs.length
decreasing_by exact length_rest_lt c cs

/-- The scan of a whole script, character by character. -/
def scan (source : String) : Scan :=
  (ofChars source.toList).foldl step {}

theorem flatMap_chars_ofChars (cs : List Char) : (ofChars cs).flatMap chars = cs := by
  fun_induction ofChars cs with
  | case1 => rfl
  | case2 c cs ih => rw [List.flatMap_cons, ih, chars_first_append_rest]

example : ofChars ['"', 'é', '"', 'ü', '1'] = [⟨.string, ['"', 'é', '"']⟩, ⟨.stray, ['ü']⟩, ⟨.number, ['1']⟩] := by
  decide +kernel

theorem exists_first_of_mem_ofChars {cs : List Char} {s : Segment} (h : s ∈ ofChars cs) : ∃ d ds, s = first d ds := by
  fun_induction ofChars cs with
  | case1 => cases h
  | case2 c cs ih =>
    rcases List.mem_cons.1 h with rfl | h
    · exact ⟨c, cs, rfl⟩
    · exact ih h

/-- A stray character is no line feed. -/
theorem first_of_stray {c : Char} {cs : List Char} (h : (first c cs).shape = .stray) :
    first c cs = ⟨.stray, [c]⟩ ∧ newlines ⟨.stray, [c]⟩ = 0 := by
  revert h
  fun_cases first c cs with
  | case10 h1 =>
    intro _
    refine ⟨rfl, List.count_eq_zero.2 ?_⟩
    rw [List.mem_singleton]
    rintro rfl
    exact h1 rfl
  | _ => nofun

theorem exists_chars_of_string {c : Char} {cs : List Char} (h : (first c cs).shape = .string) :
    ∃ w, (first c cs).chars = '"' :: (w ++ ['"']) := by
  revert h
  fun_cases first c cs with
  | case4 _ _ _ hc => exact fun _ => ⟨_, by rw [hc]⟩
  | _ => nofun

/-! ### Characters beyond ASCII -/

/-- Strings and comments, closed or not. -/
def Shape.isText : Shape → Bool
  | .string | .openString | .lineComment | .blockComment | .openComment => true
  | _ => false

private theorem toNat_lt_of_isBlank {c : Char} (h : isBlank c) : c.toNat < 0x80 := by
  simp only [isBlank, Bool.or_eq_true, beq_iff_eq] at h
  rcases h with ((rfl | rfl) | rfl) | rfl <;> decide

theorem toNat_lt_of_isWordStart {c : Char} (h : isWordStart c) : c.toNat < 0x80 := by
  rw [isWordStart, Bool.or_eq_true, beq_iff_eq] at h
  rcases h with h | rfl
  · exact Text.toNat_lt_of_isAlpha h
  · decide

private theorem toNat_lt_of_isWordChar {c : Char} (h : isWordChar c) : c.toNat < 0x80 := by
  rw [isWordChar, Bool.or_eq_true] at h
  exact h.elim toNat_lt_of_isWordStart Text.toNat_lt_of_isDigit

private theorem toNat_lt_of_mem_spelling (m : Mark) : ∀ c ∈ m.spelling.toList, c.toNat < 0x80 := by
  have table : (m.spelling.toList.all fun c => c.toNat < 0x80) = true := by
    cases m <;> decide
  simpa using table

private theorem toNat_lt_of_mem_numeral {cs : List Char} : ∀ c ∈ numeral cs, c.toNat < 0x80 := by
  have run : ∀ ds : List Char, ∀ c ∈ ds.takeWhile Char.isDigit, c.toNat < 0x80 := by
    intro ds c hc
    exact Text.toNat_lt_of_isDigit (List.all_eq_true.1 List.all_takeWhile c hc)
  fun_cases numeral cs with
  | case2 whole d ds h fraction hd =>
    simp only [Bool.and_eq_true, beq_iff_eq] at hd
    intro c hc
    rw [List.mem_append, List.mem_cons] at hc
    rcases hc with hc | rfl | hc
    · exact run cs c hc
    · rw [hd.1]
      decide
    · exact run ds c hc
  | _ => exact run cs

theorem markOf?_eq_none {cs : List Char} {c : Char} (hc : c ∈ cs) (h : ¬ c.toNat < 0x80) : markOf? cs = none := by
  rw [Option.eq_none_iff_forall_ne_some]
  intro m hm
  refine h (toNat_lt_of_mem_spelling m c ?_)
  rwa [markOf?_eq_some_iff.1 hm, String.toList_ofList]

theorem mark?_eq_none {c : Char} (h : ¬ c.toNat < 0x80) (cs : List Char) : mark? (c :: cs) = none := by
  rw [mark?, markOf?_eq_none (c := c) (by simp) h, markOf?_eq_none (c := c) (by simp) h, Option.or_none]

/-- A character beyond ASCII is a segment of its own, unless it is read in a string or comment. -/
theorem first_of_not_ascii {c : Char} (h : ¬ c.toNat < 0x80) (cs : List Char) : first c cs = ⟨.stray, [c]⟩ := by
  have h1 : ¬ isBlank c := fun hc => h (toNat_lt_of_isBlank hc)
  have h2 : ¬ c.isDigit := fun hc => h (Text.toNat_lt_of_isDigit hc)
  have h3 : ¬ isWordStart c := fun hc => h (toNat_lt_of_isWordStart hc)
  have h4 : c ≠ '"' := by
    rintro rfl
    exact h (by decide)
  have h5 : c ≠ '/' := by
    rintro rfl
    exact h (by decide)
  simp [first, h1, h2, h3, h4, h5, mark?_eq_none h]

private theorem isText_or_stray_first {c : Char} {cs : List Char} {d : Char} (hd : d ∈ (first c cs).chars)
    (h : ¬ d.toNat < 0x80) : (first c cs).shape.isText ∨ first c cs = ⟨.stray, [d]⟩ := by
  revert hd
  fun_cases first c cs with
  | case1 h1 =>
    intro hd
    rw [List.mem_singleton.1 hd] at h
    exact absurd (toNat_lt_of_isBlank h1) h
  | case2 => exact fun hd => absurd (toNat_lt_of_mem_numeral d hd) h
  | case3 => exact fun hd => absurd (toNat_lt_of_isWordChar (List.all_eq_true.1 List.all_takeWhile d hd)) h
  | case9 _ _ _ _ _ _ m => exact fun hd => absurd (toNat_lt_of_mem_spelling m d hd) h
  | case10 =>
    intro hd
    rw [List.mem_singleton.1 hd]
    exact Or.inr rfl
  | _ => exact fun _ => Or.inl rfl

/-- A character beyond ASCII is in a string, in a comment, or a stray character. -/
theorem isText_or_stray {cs : List Char} {s : Segment} (hs : s ∈ ofChars cs) {d : Char} (hd : d ∈ s.chars)
    (h : ¬ d.toNat < 0x80) : s.shape.isText ∨ s = ⟨.stray, [d]⟩ := by
  obtain ⟨c, cs, rfl⟩ := exists_first_of_mem_ofChars hs
  exact isText_or_stray_first hd h

/-! ### Other characters beyond ASCII -/

/-- The function keeps ASCII characters and puts characters beyond ASCII in the place of the others. -/
structure KeepsAscii (f : Char → Char) : Prop where
  ascii : ∀ c, c.toNat < 0x80 → f c = c
  beyond : ∀ c, ¬ c.toNat < 0x80 → ¬ (f c).toNat < 0x80

/-- The segment with other characters. -/
def map (f : Char → Char) (s : Segment) : Segment :=
  ⟨s.shape, s.chars.map f⟩

section KeepsAscii

variable {f : Char → Char} (hf : KeepsAscii f)
include hf

private theorem KeepsAscii.class_eq {q : Char → Bool} (hq : ∀ c, q c → c.toNat < 0x80) : q ∘ f = q := by
  funext c
  rw [Function.comp_apply]
  by_cases hc : c.toNat < 0x80
  · rw [hf.ascii c hc]
  · have h : q c = false := Bool.eq_false_iff.2 fun h => hc (hq c h)
    have h' : q (f c) = false := Bool.eq_false_iff.2 fun h => hf.beyond c hc (hq _ h)
    rw [h, h']

theorem KeepsAscii.eq_iff {d : Char} (hd : d.toNat < 0x80) (c : Char) : f c = d ↔ c = d := by
  have h := congrFun (hf.class_eq (q := (· == d)) (by simpa using hd)) c
  rwa [Function.comp_apply, Bool.eq_iff_iff, beq_iff_eq, beq_iff_eq] at h

private theorem KeepsAscii.map_eq_iff {ds : List Char} (hd : ∀ d ∈ ds, d.toNat < 0x80) (cs : List Char) :
    cs.map f = ds ↔ cs = ds := by
  induction cs generalizing ds with
  | nil => rfl
  | cons c cs ih =>
    cases ds with
    | nil => simp
    | cons d ds =>
      rw [List.forall_mem_cons] at hd
      rw [List.map_cons, List.cons.injEq, List.cons.injEq, hf.eq_iff hd.1, ih hd.2]

private theorem takeWhile_map {q : Char → Bool} (hq : ∀ c, q c → c.toNat < 0x80) (cs : List Char) :
    (cs.map f).takeWhile q = (cs.takeWhile q).map f := by
  rw [List.takeWhile_map, hf.class_eq hq]

private theorem dropWhile_map {q : Char → Bool} (hq : ∀ c, q c → c.toNat < 0x80) (cs : List Char) :
    (cs.map f).dropWhile q = (cs.dropWhile q).map f := by
  rw [List.dropWhile_map, hf.class_eq hq]

private theorem takeWhile_ne_map {d : Char} (hd : d.toNat < 0x80) (cs : List Char) :
    (cs.map f).takeWhile (· != d) = (cs.takeWhile (· != d)).map f := by
  have e : (· != d) ∘ f = (· != d) := by
    funext c
    rw [Function.comp_apply, Bool.eq_iff_iff, bne_iff_ne, bne_iff_ne, ne_eq, hf.eq_iff hd]
  rw [List.takeWhile_map, e]

private theorem numeral_map (cs : List Char) : numeral (cs.map f) = (numeral cs).map f := by
  have hd : ∀ c, Char.isDigit c → c.toNat < 0x80 := fun c => Text.toNat_lt_of_isDigit
  rw [numeral, numeral, takeWhile_map hf hd, dropWhile_map hf hd]
  cases cs.dropWhile Char.isDigit with
  | nil => rfl
  | cons d ds =>
    have e : (f d == '.') = (d == '.') := by
      rw [Bool.eq_iff_iff, beq_iff_eq, beq_iff_eq, hf.eq_iff (by decide)]
    simp only [List.map_cons, takeWhile_map hf hd, e, List.isEmpty_map]
    split
    · rw [List.map_append, List.map_cons]
    · rfl

private theorem comment?_map (depth : Nat) (cs : List Char) :
    comment? depth (cs.map f) = (comment? depth cs).map (List.map f) := by
  have ho (c d : Char) : f c = '/' ∧ f d = '*' ↔ c = '/' ∧ d = '*' :=
    and_congr (hf.eq_iff (by decide) c) (hf.eq_iff (by decide) d)
  have hc (c d : Char) : f c = '*' ∧ f d = '/' ↔ c = '*' ∧ d = '/' :=
    and_congr (hf.eq_iff (by decide) c) (hf.eq_iff (by decide) d)
  fun_induction comment? depth cs with
  | case1 => rfl
  | case2 => rfl
  | case3 depth c d cs h ih =>
    rw [List.map_cons, List.map_cons, comment?, if_pos ((ho c d).2 h), ih, Option.map_map, Option.map_map]
    rfl
  | case4 c d cs h h' =>
    rw [List.map_cons, List.map_cons, comment?, if_neg (mt (ho c d).1 h), if_pos ((hc c d).2 h'), if_pos rfl]
    rfl
  | case5 depth c d cs h h' h0 ih =>
    rw [List.map_cons, List.map_cons, comment?, if_neg (mt (ho c d).1 h), if_pos ((hc c d).2 h'), if_neg h0, ih,
      Option.map_map, Option.map_map]
    rfl
  | case6 depth c d cs h h' ih =>
    rw [List.map_cons, List.map_cons, comment?, if_neg (mt (ho c d).1 h), if_neg (mt (hc c d).1 h'), ← List.map_cons,
      ih, Option.map_map, Option.map_map]
    rfl

private theorem mark?_map (cs : List Char) : mark? (cs.map f) = mark? cs := by
  have e : ∀ ds : List Char, markOf? (ds.map f) = markOf? ds := by
    intro ds
    ext m
    have h : m.spelling.toList = ds.map f ↔ m.spelling.toList = ds := by
      rw [eq_comm, hf.map_eq_iff (toNat_lt_of_mem_spelling m), eq_comm]
    rw [markOf?_eq_some_iff, markOf?_eq_some_iff, ← String.toList_inj, ← String.toList_inj, String.toList_ofList,
      String.toList_ofList, h]
  rw [mark?, mark?, ← List.map_take, ← List.map_take, e, e]

/-- The first segment does not depend on which characters beyond ASCII stand where they stand. -/
private theorem first_map (c : Char) (cs : List Char) : first (f c) (cs.map f) = (first c cs).map f := by
  have h1 : isBlank (f c) = isBlank c := congrFun (hf.class_eq fun _ => toNat_lt_of_isBlank) c
  have h2 : (f c).isDigit = c.isDigit := congrFun (hf.class_eq fun _ => Text.toNat_lt_of_isDigit) c
  have h3 : isWordStart (f c) = isWordStart c := congrFun (hf.class_eq fun _ => toNat_lt_of_isWordStart) c
  have h4 : f c = '"' ↔ c = '"' := hf.eq_iff (by decide) c
  have h5 : '"' ∈ cs.map f ↔ '"' ∈ cs := by simp [hf.eq_iff (d := '"') (by decide)]
  have h6 (d : Char) (hd : d.toNat < 0x80) : f c = '/' ∧ (cs.map f).head? = some d ↔ c = '/' ∧ cs.head? = some d := by
    refine and_congr (hf.eq_iff (by decide) c) ?_
    cases cs with
    | nil => simp
    | cons x cs => simp [hf.eq_iff hd]
  have h7 := mark?_map hf (c :: cs)
  have h8 := comment?_map hf 0 cs.tail
  rw [List.map_cons] at h7
  rw [List.map_tail] at h8
  -- both sides now take the same branch
  rw [first]
  simp only [h1, h2, h3, h4, h5, h6 '/' (by decide), h6 '*' (by decide), h7, h8]
  fun_cases first c cs with
  | case1 a1 => rw [if_pos a1, map, List.map_singleton]
  | case2 a1 a2 => rw [if_neg a1, if_pos a2, ← List.map_cons, numeral_map hf, map]
  | case3 a1 a2 a3 =>
    rw [if_neg a1, if_neg a2, if_pos a3, ← List.map_cons, takeWhile_map hf fun _ => toNat_lt_of_isWordChar, map]
  | case4 a1 a2 a3 a4 a5 =>
    rw [if_neg a1, if_neg a2, if_neg a3, if_pos a4, if_pos a5, takeWhile_ne_map hf (by decide), map, List.map_cons,
      List.map_append, List.map_singleton, hf.ascii '"' (by decide)]
  | case5 a1 a2 a3 a4 a5 => rw [if_neg a1, if_neg a2, if_neg a3, if_pos a4, if_neg a5, map, List.map_cons]
  | case6 a1 a2 a3 a4 a5 =>
    rw [if_neg a1, if_neg a2, if_neg a3, if_neg a4, if_pos a5, ← List.map_cons, takeWhile_ne_map hf (by decide), map]
  | case7 a1 a2 a3 a4 a5 a6 w hw =>
    rw [if_neg a1, if_neg a2, if_neg a3, if_neg a4, if_neg a5, if_pos a6, hw, map, List.map_cons, List.map_cons,
      hf.ascii '/' (by decide), hf.ascii '*' (by decide)]
    rfl
  | case8 a1 a2 a3 a4 a5 a6 hw =>
    rw [if_neg a1, if_neg a2, if_neg a3, if_neg a4, if_neg a5, if_pos a6, hw, map, List.map_cons]
    rfl
  | case9 a1 a2 a3 a4 a5 a6 m hm =>
    rw [if_neg a1, if_neg a2, if_neg a3, if_neg a4, if_neg a5, if_neg a6, hm, map,
      (hf.map_eq_iff (toNat_lt_of_mem_spelling m) _).2 rfl]
  | case10 a1 a2 a3 a4 a5 a6 hm =>
    rw [if_neg a1, if_neg a2, if_neg a3, if_neg a4, if_neg a5, if_neg a6, hm, map, List.map_singleton]

/-- Other characters in the place of characters beyond ASCII leave all segments where they are. -/
theorem ofChars_map (cs : List Char) : ofChars (cs.map f) = (ofChars cs).map (map f) := by
  fun_induction ofChars cs with
  | case1 => simp [ofChars]
  | case2 c cs ih =>
    have hr : rest (f c) (cs.map f) = (rest c cs).map f := by
      rw [rest, rest, first_map hf, map, List.length_map, ← List.map_cons, List.map_drop]
    rw [List.map_cons, ofChars, hr, first_map hf, ih, List.map_cons]

end KeepsAscii

end Segment

end ScriptLexer
