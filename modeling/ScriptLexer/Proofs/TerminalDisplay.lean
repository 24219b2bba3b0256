import Mathlib.Data.List.Induction
import ScriptLexer.Proofs.ReporterLog

/-!
# What a terminal shows

A terminal reads a text from left to right: codes change its look and are not shown, and all other characters are shown
in the look it has (`Terminal.display`).  Every styled text ends by a code that clears all styles, those around it
included.  The key fact is that no character is shown after the first such code: a text is shown in all the styles that
it is wrapped in, and the terminal is plain afterwards (`Terminal.shows_styled`).  So the parts of a message and the
lines of a log have no influence on each other (`Terminal.shows_message`, `Terminal.shows_log`).
-/

namespace ScriptLexer

namespace Terminal

/-- How a terminal shows characters; plain if nothing else is said. -/
structure Look where
  bold : Bool := false
  color : Option Color := none
deriving DecidableEq, Repr

/-- A character as it is shown. -/
structure Glyph where
  char : Char
  look : Look
deriving DecidableEq, Repr

/-- What a terminal of the given look shows of some characters, and its look after them.  An escape character that
starts none of the codes is shown as it is. -/
def display (look : Look) : List Char → List Glyph × Look
  | '\x1b' :: '[' :: '0' :: 'm' :: cs => display {} cs
  | '\x1b' :: '[' :: '1' :: 'm' :: cs => display { look with bold := true } cs
  | '\x1b' :: '[' :: '3' :: '1' :: 'm' :: cs => display { look with color := some .red } cs
  | '\x1b' :: '[' :: '3' :: '2' :: 'm' :: cs => display { look with color := some .green } cs
  | '\x1b' :: '[' :: '3' :: '3' :: 'm' :: cs => display { look with color := some .yellow } cs
  | c :: cs =>
    let (glyphs, last) := display look cs
    (⟨c, look⟩ :: glyphs, last)
  | [] => ([], look)

/-- The characters of a text, all in one look. -/
def glyphs (look : Look) (text : String) : List Glyph :=
  text.toList.map fun c => ⟨c, look⟩

/-- The colour of a style that has one. -/
def Style.color? : Style → Option Color
  | .bold => none
  | .color c => some c

/-- The look with one more style, which takes the place of an earlier one of its kind. -/
def Look.add (look : Look) : Style → Look
  | .bold => { look with bold := true }
  | .color c => { look with color := some c }

/-- The look of a text in several styles, the first one innermost: bold if one of them is, and in the colour of the
innermost one that has a colour. -/
def Look.ofStyles (styles : List Style) : Look :=
  ⟨decide (.bold ∈ styles), styles.findSome? Style.color?⟩

private theorem Look.foldr_add (styles : List Style) :
    styles.foldr (fun s look => look.add s) {} = ofStyles styles := by
  induction styles with
  | nil => rfl
  | cons s styles ih =>
    rw [List.foldr_cons, ih]
    cases s <;> simp [add, ofStyles, List.findSome?_cons, Style.color?]

/-! ### Fragments one after the other -/

/-- Whatever follows them, the fragments are shown as the given glyphs and leave the given look. -/
def Shows (look : Look) (fragments : List String) (gs : List Glyph) (last : Look) : Prop :=
  ∀ rest : List Char, display look (fragments.flatMap String.toList ++ rest) =
    (gs ++ (display last rest).1, (display last rest).2)

private theorem Shows.display_join {look last : Look} {fragments : List String} {gs : List Glyph}
    (h : Shows look fragments gs last) : display look (String.join fragments).toList = (gs, last) := by
  have h := h []
  rw [List.append_nil, display, List.append_nil] at h
  rw [String.toList_join, h]

theorem Shows.nil (look : Look) : Shows look [] [] look :=
  fun _ => rfl

theorem Shows.append {look next last : Look} {fs fs' : List String} {gs gs' : List Glyph} (h : Shows look fs gs next)
    (h' : Shows next fs' gs' last) : Shows look (fs ++ fs') (gs ++ gs') last := by
  intro rest
  rw [List.flatMap_append, List.append_assoc, h, h', List.append_assoc]

private theorem shows_code (look : Look) (s : Style) : Shows look [s.code] [] (look.add s) := by
  intro rest
  rcases s with _ | _ | _ | _ <;> rfl

private theorem shows_reset (look : Look) : Shows look [reset] [] {} :=
  fun _ => rfl

private theorem display_cons_of_ne (look : Look) {c : Char} (hc : c ≠ '\x1b') (cs : List Char) :
    display look (c :: cs) = (⟨c, look⟩ :: (display look cs).1, (display look cs).2) := by
  rw [display] <;> grind

private theorem shows_text (look : Look) {text : String} (h : '\x1b' ∉ text.toList) :
    Shows look [text] (glyphs look text) look := by
  intro rest
  rw [List.flatMap_singleton, glyphs]
  generalize text.toList = cs at h
  induction cs with
  | nil => rfl
  | cons c cs ih =>
    rw [List.mem_cons, not_or] at h
    rw [List.cons_append, display_cons_of_ne look (Ne.symm h.1), ih h.2]
    rfl

/-! ### Styles, messages and logs -/

theorem Shows.wrap {look last : Look} {s : Style} {fragments : List String} {gs : List Glyph}
    (h : Shows (look.add s) fragments gs last) : Shows look (s.wrap fragments) gs {} := by
  have h := ((shows_code look s).append h).append (shows_reset last)
  rwa [List.nil_append, List.append_nil] at h

private theorem styled_concat (text : String) (styles : List Style) (s : Style) :
    styled text (styles ++ [s]) = s.wrap (styled text styles) := by
  simp [styled]

/-- The codes come from the outermost style to the innermost one, so the first style of the list has the last word. -/
private theorem exists_shows_styled {text : String} (h : '\x1b' ∉ text.toList) (styles : List Style) (look : Look) :
    ∃ last, Shows look (styled text styles) (glyphs (styles.foldr (fun s look => look.add s) look) text) last ∧
      (look = {} → last = {}) := by
  induction styles using List.reverseRecOn generalizing look with
  | nil => exact ⟨look, shows_text look h, id⟩
  | append_singleton styles s ih =>
    obtain ⟨last, hs, -⟩ := ih (look.add s)
    rw [styled_concat, List.foldr_append]
    exact ⟨{}, hs.wrap, fun _ => rfl⟩

theorem shows_styled {text : String} (h : '\x1b' ∉ text.toList) (styles : List Style) :
    Shows {} (styled text styles) (glyphs (Look.ofStyles styles) text) {} := by
  obtain ⟨last, hs, hlast⟩ := exists_shows_styled h styles {}
  rwa [hlast rfl, Look.foldr_add] at hs

-- A text after an inner style has lost the outer one: a style must be applied to one text only.
example : display {} (String.join (Style.bold.wrap (styled "a" [.color .red] ++ ["b"]))).toList =
    ([⟨'a', ⟨true, some .red⟩⟩, ⟨'b', {}⟩], {}) := by
  decide

private theorem Severity.escape_notMem_header (s : Severity) : '\x1b' ∉ s.header.toList := by
  cases s <;> decide

/-- What is to be seen of a message. -/
def Message.shown (m : Message) : List Glyph :=
  glyphs ⟨true, some m.severity.color⟩ m.severity.header ++ glyphs {} " " ++ glyphs ⟨true, none⟩ m.text

theorem shows_message {m : Message} (h : '\x1b' ∉ m.text.toList) : Shows {} m.fragments m.shown {} := by
  have hheader := shows_styled m.severity.escape_notMem_header [.color m.severity.color, .bold]
  have hspace : Shows {} [" "] _ {} := shows_text {} (by decide)
  exact (hheader.append hspace).append (shows_styled h [.bold])

theorem shows_log {texts : List String} (h : ∀ text ∈ texts, '\x1b' ∉ text.toList) :
    Shows {} (texts.flatMap fun text => (Message.mk .error text).fragments ++ ["\n"])
      (texts.flatMap fun text => (Message.mk .error text).shown ++ glyphs {} "\n") {} := by
  induction texts with
  | nil => exact .nil {}
  | cons text texts ih =>
    rw [List.forall_mem_cons] at h
    have hmessage : Shows {} (Message.mk .error text).fragments _ {} := shows_message h.1
    have hnewline : Shows {} ["\n"] _ {} := shows_text {} (by decide)
    exact (hmessage.append hnewline).append (ih h.2)

/-- On a plain terminal a text without escape characters is shown in the styles it is wrapped in: bold if one of them
is, and in the colour of the innermost one with a colour.  So a message is shown with a header in bold and the colour of
its severity, a plain space, and its text in bold without a colour, and so is every message of a reporter's log, each
followed by a plain line feed.  In all these cases the terminal is plain afterwards. -/
theorem display_formatted :
    (∀ (text : String) (styles : List Style), '\x1b' ∉ text.toList →
      display {} (String.join (styled text styles)).toList =
        (glyphs ⟨decide (.bold ∈ styles), styles.findSome? Style.color?⟩ text, {})) ∧
    (∀ m : Message, '\x1b' ∉ m.text.toList →
      display {} m.render.toList =
        (glyphs ⟨true, some m.severity.color⟩ m.severity.header ++ glyphs {} " " ++ glyphs ⟨true, none⟩ m.text, {})) ∧
    ∀ r : Reporter, (∀ text ∈ r.messages.toList, '\x1b' ∉ text.toList) →
      ∃ log : String, r.writeTo {} = (⟨none, (Text.bytes log).toArray⟩, none) ∧
        display {} log.toList =
          (r.messages.toList.flatMap fun text =>
            glyphs ⟨true, some .red⟩ "[error]:" ++ glyphs {} " " ++ glyphs ⟨true, none⟩ text ++ glyphs {} "\n",
            {}) := by
  refine ⟨?_, ?_, ?_⟩
  · intro text styles h
    exact (shows_styled h styles).display_join
  · intro m h
    exact (shows_message h).display_join
  · intro r h
    refine ⟨String.join r.fragments, ?_, (shows_log h).display_join⟩
    rw [r.writeTo_unlimited, r.log_eq_bytes_join]

/-- A text that looks like the end of a code, a warning without a text, and a log with an empty text and one of two
lines. -/
theorem display_formatted_bracket :
    display {} (String.join (styled "[0m é" [.color .green, .bold, .color .red])).toList =
      (glyphs ⟨true, some .green⟩ "[0m é", {}) ∧
    display {} (Message.mk .warning "").render.toList =
      (glyphs ⟨true, some .yellow⟩ "[warning]:" ++ glyphs {} " ", {}) ∧
    ∃ log : String, (⟨#["", "a\nb"], .error⟩ : Reporter).writeTo {} = (⟨none, (Text.bytes log).toArray⟩, none) ∧
      display {} log.toList =
        (glyphs ⟨true, some .red⟩ "[error]:" ++ glyphs {} " \n" ++
          (glyphs ⟨true, some .red⟩ "[error]:" ++ glyphs {} " " ++ glyphs ⟨true, none⟩ "a\nb" ++ glyphs {} "\n"),
          {}) := by
  obtain ⟨ht, hm, hr⟩ := display_formatted
  refine ⟨ht _ _ (by decide), hm _ (by decide), ?_⟩
  exact hr ⟨#["", "a\nb"], .error⟩ (by decide)

end Terminal

end ScriptLexer
