import Mathlib.Data.List.Basic
import ScriptLexer.Byte
import ScriptLexer.Diagnostic.Reporter
import ScriptLexer.Proofs.Utf8

/-!
# The lines of a log

A reporter that writes where there is no limit writes its whole log (`Reporter.writeTo_unlimited`), one framed line for
each text it keeps (`Reporter.log_eq`).  The header and the codes are the same in all lines, and what is left without
them is the text (`Reporter.unframe?_frame`).  Texts without line feeds are found again by cutting the log at its line
feeds (`Reporter.splitOn_log`).
-/

namespace ScriptLexer.Reporter

/-- The bytes of the log. -/
def log (r : Reporter) : List UInt8 :=
  r.fragments.flatMap Text.bytes

/-- The fragments of the log are written as the log is. -/
theorem writeTo_eq (r : Reporter) (b : Buffer) : r.writeTo b = b.write r.log := by
  rw [writeTo, Buffer.writeAll_eq_write, ← List.flatMap_def, ← log]

theorem writeTo_unlimited (r : Reporter) : r.writeTo {} = (⟨none, r.log.toArray⟩, none) := by
  rw [writeTo_eq, Buffer.write]
  simp only [Buffer.fitting, List.toArray_appendList, List.nil_append, Nat.lt_irrefl, if_false]

/-- The log is a text. -/
theorem log_eq_bytes_join (r : Reporter) : r.log = Text.bytes (String.join r.fragments) := by
  rw [log]
  generalize r.fragments = fragments
  induction fragments with
  | nil => rfl
  | cons s fragments ih => rw [String.join_cons, Text.bytes_append, List.flatMap_cons, ih]

/-- The header of a log line and the codes up to its text. -/
def lineStart : List UInt8 :=
  Text.bytes "\x1b[1m\x1b[31m[error]:\x1b[0m\x1b[0m \x1b[1m"

/-- The code after the text of a log line. -/
def lineEnd : List UInt8 :=
  Text.bytes "\x1b[0m"

/-- The log line with the given text. -/
def frame (text : String) : List UInt8 :=
  lineStart ++ (Text.bytes text ++ lineEnd)

/-- What is left of a log line without the header and the codes, or `none` if they are not there. -/
def unframe? (line : List UInt8) : Option (List UInt8) := do
  let framed ← line.dropPrefix? lineStart
  framed.dropSuffix? lineEnd

theorem unframe?_frame (text : String) : unframe? (frame text) = some (Text.bytes text) := by
  have h : (frame text).dropPrefix? lineStart = some (Text.bytes text ++ lineEnd) :=
    List.dropPrefix?_append_of_beq _ (beq_self_eq_true lineStart)
  rw [unframe?, h]
  exact List.dropSuffix?_eq_some_iff.2 ⟨lineEnd, rfl, beq_self_eq_true lineEnd⟩

theorem frame_injective : Function.Injective frame := by
  intro text text' e
  have h := unframe?_frame text
  rw [e, unframe?_frame, Option.some.injEq] at h
  exact Text.bytes_inj.1 h.symm

theorem log_eq (r : Reporter) : r.log = r.messages.toList.flatMap fun text => frame text ++ [Byte.newline] := by
  have hstart : ["\x1b[1m", "\x1b[31m", "[error]:", "\x1b[0m", "\x1b[0m", " ", "\x1b[1m"].flatMap Text.bytes =
      lineStart := by decide
  have hend : ["\x1b[0m", "\n"].flatMap Text.bytes = lineEnd ++ [Byte.newline] := by decide
  rw [log, fragments, List.flatMap_assoc]
  congr 1
  funext text
  have e : (Terminal.Message.mk .error text).fragments ++ ["\n"] =
      ["\x1b[1m", "\x1b[31m", "[error]:", "\x1b[0m", "\x1b[0m", " ", "\x1b[1m"] ++ text :: ["\x1b[0m", "\n"] := rfl
  rw [e, List.flatMap_append, hstart, List.flatMap_cons, hend, frame]
  simp only [List.append_assoc]

/-- A log of texts without line feeds has one line for each of them. -/
theorem splitOn_log {r : Reporter} (h : ∀ text ∈ r.messages.toList, Byte.newline ∉ Text.bytes text) :
    r.log.splitOn Byte.newline = r.messages.toList.map frame ++ [[]] := by
  rw [log_eq]
  generalize r.messages.toList = texts at h
  induction texts with
  | nil => rfl
  | cons text texts ih =>
    rw [List.forall_mem_cons] at h
    have hs : Byte.newline ∉ lineStart := by decide
    have he : Byte.newline ∉ lineEnd := by decide
    have hf : Byte.newline ∉ frame text := by
      rw [frame, List.mem_append, List.mem_append]
      exact fun hm => hm.elim hs fun hm => hm.elim h.1 he
    rw [List.flatMap_cons, List.append_assoc, List.singleton_append, List.splitOn_append_cons_self_of_not_mem hf,
      ih h.2, List.map_cons, List.cons_append]

end ScriptLexer.Reporter
