import ScriptLexer.Scan

/-!
# Token streams

The tokens of a script, in order and with a last token for the end of the script.  `tokenize` gives the stream of any
script; the faults of the script go to a sink, which has no influence on the stream.
-/

namespace ScriptLexer

/-- The tokens of a script. -/
structure TokenStream where
  /-- The tokens before the last. -/
  body : Array Token
  /-- The line of the last token. -/
  endLine : Nat
deriving DecidableEq, Repr

/-- Why there is no token at an index. -/
structure IndexError where
  size : Nat
  index : Nat
deriving DecidableEq, Repr

def IndexError.message (e : IndexError) : String :=
  "index out of bounds: the len is " ++ toString e.size ++ " but the index is " ++ toString e.index

namespace TokenStream

/-- The last token. -/
def last (s : TokenStream) : Token :=
  .eof s.endLine

def toList (s : TokenStream) : List Token :=
  s.body.toList ++ [s.last]

/-- The number of tokens, the last one included. -/
def size (s : TokenStream) : Nat :=
  s.body.size + 1

/-- The token at an index. -/
def get? (s : TokenStream) (i : Nat) : Option Token :=
  if i = s.body.size then some s.last else s.body[i]?

/-- The token at an index, or what is wrong with the index. -/
def get (s : TokenStream) (i : Nat) : Except IndexError Token :=
  match s.get? i with
  | some t => .ok t
  | none => .error ⟨s.size, i⟩

/-- Equality of streams, token by token, with numbers compared by value. -/
instance : BEq TokenStream :=
  ⟨fun s t => s.body == t.body && s.last == t.last⟩

/-- The first index at which the end of the script stands. -/
def findEof? (s : TokenStream) : Option Nat :=
  s.toList.findIdx? fun t => t == .eof t.line

@[simp] theorem length_toList (s : TokenStream) : s.toList.length = s.size := by
  simp [toList, size]

theorem get?_eq_getElem? (s : TokenStream) (i : Nat) : s.get? i = s.toList[i]? := by
  unfold get? toList
  split
  · next h => simp [h]
  · by_cases h : i < s.body.size
    · simp [h, List.getElem?_append_left]
    · rw [Array.getElem?_eq_none (by omega), List.getElem?_eq_none]
      simp
      omega

end TokenStream

/-- The tokens of a script, and the sink after the faults of the script. -/
def tokenize {σ : Type} [Sink σ LexicalError] (source : String) (sink : σ) : TokenStream × σ :=
  let scan := Scan.ofSource source
  (⟨scan.tokens, scan.line⟩, Sink.receiveAll sink scan.errors)

end ScriptLexer
