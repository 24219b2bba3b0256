/-!
# Terminal styles

A terminal is switched to a style by a code and back to plain by `reset`, whatever the style.  Styled text is a list of
fragments, codes and text apart; what is shown is their concatenation.
-/

namespace ScriptLexer.Terminal

/-- A foreground colour. -/
inductive Color where
  | red | green | yellow
deriving DecidableEq, Repr, Ord

/-- A style of text on a terminal. -/
inductive Style where
  | bold
  | color (c : Color)
deriving DecidableEq, Repr, Ord

/-- The code that clears every style. -/
def reset : String :=
  "\x1b[0m"

namespace Style

/-- The code that switches to a style. -/
def code : Style → String
  | bold => "\x1b[1m"
  | color .red => "\x1b[31m"
  | color .green => "\x1b[32m"
  | color .yellow => "\x1b[33m"

/-- The fragments in a style. -/
def wrap (s : Style) (fragments : List String) : List String :=
  s.code :: fragments ++ [reset]

end Style

/-- A text in several styles, the first one innermost. -/
def styled (text : String) (styles : List Style) : List String :=
  styles.foldl (fun fragments s => s.wrap fragments) [text]

end ScriptLexer.Terminal
