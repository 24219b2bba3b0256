import ScriptLexer.Proofs.DecimalText
import ScriptLexer.Proofs.History
import ScriptLexer.Proofs.ReporterLog

/-!
# The log of lexical errors

Escaping keeps bytes apart (`Byte.escaped_injective`) and writes them as printable ASCII (`Text.printable_escaped`), so
the text of an error is printable and determines the error (`LexicalError.entry_injective`).  A printable text cannot
end its log line, so a log is read back line by line: no two lists of errors have the same log
(`LexicalError.log_readable`).
-/

namespace ScriptLexer

/-! ### Escaped bytes -/

namespace Byte

/-- The value of a lower-case hexadecimal digit. -/
def hexValue (c : Char) : Nat :=
  if c.isDigit then c.toNat - '0'.toNat else c.toNat - 'a'.toNat + 10

/-- The byte that is escaped as the given characters. -/
def unescaped : List Char → UInt8
  | [c] => UInt8.ofNat c.toNat
  | ['\\', 't'] => 0x09
  | ['\\', 'r'] => 0x0D
  | ['\\', 'n'] => 0x0A
  | ['\\', c] => UInt8.ofNat c.toNat
  | ['\\', 'x', h, l] => UInt8.ofNat (16 * hexValue h + hexValue l)
  | _ => 0

private theorem hexValue_digitChar : ∀ n < 16, hexValue (Nat.digitChar n) = n := by
  decide

private theorem toNat_ofUInt8 (b : UInt8) : (Char.ofUInt8 b).toNat = b.toNat :=
  UInt8.toNat_toUInt32 b

private theorem unescaped_escaped (b : UInt8) : unescaped (escaped b).toList = b := by
  fun_cases escaped b with
  | case7 b h =>
    rw [if_pos h, String.toList_singleton]
    show UInt8.ofNat (Char.ofUInt8 b).toNat = b
    rw [toNat_ofUInt8, UInt8.ofNat_toNat]
  | case8 b h =>
    have hb := b.toNat_lt
    rw [if_neg h, String.toList_ofList]
    show UInt8.ofNat (16 * hexValue _ + hexValue _) = b
    rw [hexValue_digitChar _ (by omega), hexValue_digitChar _ (by omega), Nat.div_add_mod, UInt8.ofNat_toNat]
  | _ => decide

theorem escaped_injective : Function.Injective escaped := by
  intro b b' e
  rw [← unescaped_escaped b, e, unescaped_escaped]

end Byte

/-! ### Printable texts -/

namespace Text

/-- All bytes of the text are those of printable ASCII characters. -/
def Printable (s : String) : Prop :=
  ∀ b ∈ bytes s, 0x20 ≤ b ∧ b ≤ 0x7E

instance (s : String) : Decidable (Printable s) :=
  List.decidableBAll _ _

theorem Printable.append {s t : String} (hs : Printable s) (ht : Printable t) : Printable (s ++ t) := by
  intro b hb
  rw [bytes_append, List.mem_append] at hb
  exact hb.elim (hs b) (ht b)

theorem Printable.newline_notMem {s : String} (h : Printable s) : Byte.newline ∉ bytes s := by
  intro hb
  exact absurd (h _ hb) (by decide)

private theorem printable_ofList {cs : List Char} (h : ∀ c ∈ cs, 0x20 ≤ c.toNat ∧ c.toNat ≤ 0x7E) :
    Printable (String.ofList cs) := by
  intro b hb
  rw [bytes_ofList_eq_encode] at hb
  obtain ⟨c, hc, hb⟩ := List.mem_flatMap.1 hb
  have hc := h c hc
  obtain ⟨-, e⟩ := (utf8EncodeChar_cases c).resolve_right fun hn => hn.1 (by omega)
  rw [e, List.mem_singleton] at hb
  have e' : b.toNat = c.toNat := by
    rw [hb, UInt8.toNat_ofNat']
    omega
  rw [UInt8.le_iff_toNat_le, UInt8.le_iff_toNat_le, e']
  exact hc

private theorem printable_toString (n : Nat) : Printable (toString n) := by
  rw [Nat.toString_eq_ofList_toDigits]
  apply printable_ofList
  intro c hc
  have hd := isDigit_of_mem_toDigits hc
  simp only [Char.isDigit, Bool.and_eq_true, decide_eq_true_eq, ge_iff_le, UInt32.le_iff_toNat_le] at hd
  have h1 : 0x30 ≤ c.toNat := hd.1
  have h2 : c.toNat ≤ 0x39 := hd.2
  omega

theorem printable_escaped (b : UInt8) : Printable (Byte.escaped b) := by
  have hx : ∀ n < 16, 0x20 ≤ (Nat.digitChar n).toNat ∧ (Nat.digitChar n).toNat ≤ 0x7E := by decide
  fun_cases Byte.escaped b with
  | case7 b h =>
    rw [if_pos h, String.singleton_eq_ofList]
    apply printable_ofList
    rw [Bool.and_eq_true, decide_eq_true_eq, decide_eq_true_eq, UInt8.le_iff_toNat_le, UInt8.le_iff_toNat_le] at h
    rw [List.forall_mem_singleton, Byte.toNat_ofUInt8]
    exact h
  | case8 b h =>
    have hb := b.toNat_lt
    rw [if_neg h]
    apply printable_ofList
    simp only [List.forall_mem_cons]
    exact ⟨by decide, by decide, hx _ (by omega), hx _ (by omega), by simp⟩
  | _ => decide

end Text

/-! ### Errors and their logs -/

namespace LexicalError

/-- The text that a reporter keeps of an error. -/
def entry (e : LexicalError) : String :=
  Reporter.entry e.line e.message

private theorem printable_message (e : LexicalError) : Text.Printable e.message := by
  cases e with
  | openComment line => exact (by decide : Text.Printable "block comment is not closed")
  | openString line => exact (by decide : Text.Printable "unterminated string")
  | strayByte line b =>
    have h : Text.Printable "unexpected character: `" := by decide
    exact (h.append (Text.printable_escaped b)).append (by decide)

private theorem printable_entry (e : LexicalError) : Text.Printable e.entry := by
  have hl : Text.Printable "line " := by decide
  have hc : Text.Printable ": " := by decide
  exact ((hl.append (Text.printable_toString e.line)).append hc).append e.printable_message

private theorem message_strayByte (line : Nat) (b : UInt8) :
    (strayByte line b).message = "unexpected character: `" ++ Byte.escaped b ++ "`" := rfl

/-- The third byte of the messages of errors with the cause. -/
private def causeByte : Cause → UInt8
  | .openComment => 0x6F
  | .openString => 0x74
  | .strayByte => 0x65

private theorem causeByte_injective : Function.Injective causeByte := by
  intro c c'
  cases c <;> cases c' <;> decide

private theorem getElem?_bytes_message (e : LexicalError) : (Text.bytes e.message)[2]? = some (causeByte e.cause) := by
  cases e with
  | openComment line => exact (by decide : (Text.bytes "block comment is not closed")[2]? = some 0x6F)
  | openString line => exact (by decide : (Text.bytes "unterminated string")[2]? = some 0x74)
  | strayByte line b =>
    have h : (Text.bytes "unexpected character: `")[2]? = some 0x65 := by decide
    rw [message_strayByte, Text.bytes_append, Text.bytes_append, List.append_assoc, List.getElem?_append_left, h]
    · rfl
    · decide

private theorem cause_eq_of_message_eq {e e' : LexicalError} (h : e.message = e'.message) : e.cause = e'.cause := by
  have hb := getElem?_bytes_message e
  rw [h, getElem?_bytes_message e', Option.some.injEq] at hb
  exact causeByte_injective hb.symm

/-- The message of an error tells everything but the line. -/
private theorem eq_of_message_eq {e e' : LexicalError} (hl : e.line = e'.line) (hm : e.message = e'.message) :
    e = e' := by
  have hc := cause_eq_of_message_eq hm
  cases e with
  | openComment line =>
    cases e' with
    | openComment line' => exact congrArg openComment hl
    | openString | strayByte => cases hc
  | openString line =>
    cases e' with
    | openString line' => exact congrArg openString hl
    | openComment | strayByte => cases hc
  | strayByte line b =>
    cases e' with
    | strayByte line' b' =>
      rw [message_strayByte, message_strayByte, String.append_left_inj, String.append_right_inj] at hm
      rw [Byte.escaped_injective hm, show line = line' from hl]
    | openComment | openString => cases hc

private theorem toList_entry (e : LexicalError) : e.entry.toList =
    "line ".toList ++ (Nat.toDigits 10 e.line ++ ':' :: ' ' :: e.message.toList) := by
  have h : ": ".toList = [':', ' '] := rfl
  rw [entry, Reporter.entry]
  simp only [String.toList_append, Nat.toString_eq_ofList_toDigits, String.toList_ofList, List.append_assoc, h,
    List.cons_append, List.nil_append]

theorem entry_injective : Function.Injective entry := by
  intro e e' h
  have h := congrArg String.toList h
  rw [toList_entry, toList_entry, List.append_cancel_left_eq] at h
  obtain ⟨hl, hm⟩ := toDigits_append_inj (by decide) h
  exact eq_of_message_eq hl (String.toList_inj.1 (List.cons.inj hm).2)

/-- The log of a new reporter that has received the errors. -/
def log (es : List LexicalError) : List UInt8 :=
  (Sink.receiveAll ({} : Reporter) es.toArray).log

theorem splitOn_log (es : List LexicalError) :
    (log es).splitOn Byte.newline = es.map (fun e => Reporter.frame e.entry) ++ [[]] := by
  have h : (Sink.receiveAll ({} : Reporter) es.toArray).messages.toList = es.map entry := by
    rw [Hub.receiveAll_reporter, Array.toList_append]
    rfl
  rw [log, Reporter.splitOn_log, h, List.map_map]
  · rfl
  · rw [h, List.forall_mem_map]
    exact fun e _ => e.printable_entry.newline_notMem

private theorem log_injective : Function.Injective log := by
  intro es es' h
  have h := congrArg (List.splitOn Byte.newline) h
  rw [splitOn_log, splitOn_log, List.append_cancel_right_eq] at h
  exact List.map_injective_iff.2 (Reporter.frame_injective.comp entry_injective) h

/-- A reporter that has received some errors writes a log with one line for each of them, in order, and nothing after
the last line.  A line without the header and the codes is the text of its error, which is printable ASCII.  No two
lists of errors have the same log, so the errors of a script can be read from its log. -/
theorem log_readable :
    (∀ es : List LexicalError,
      (Sink.receiveAll ({} : Reporter) es.toArray).writeTo {} = (⟨none, (log es).toArray⟩, none) ∧
      ∃ lines, (log es).splitOn Byte.newline = lines ++ [[]] ∧
        lines.map Reporter.unframe? =
          es.map fun e => some (Text.bytes ("line " ++ toString e.line ++ ": " ++ e.message))) ∧
    (∀ e : LexicalError, ∀ b ∈ Text.bytes ("line " ++ toString e.line ++ ": " ++ e.message), 0x20 ≤ b ∧ b ≤ 0x7E) ∧
    Function.Injective log ∧
    ∀ source : String, (tokenize source ({} : Reporter)).2.log =
      log (tokenize source ({} : Storage LexicalError)).2.errors.toList := by
  refine ⟨fun es => ⟨Reporter.writeTo_unlimited _, _, splitOn_log es, ?_⟩, printable_entry, log_injective, ?_⟩
  · rw [List.map_map]
    exact List.map_congr_left fun e _ => Reporter.unframe?_frame e.entry
  · intro source
    have h : (tokenize source ({} : Storage LexicalError)).2.errors.toList = (Scan.ofSource source).errors.toList := by
      rw [errors_tokenize, Scan.ofSource_eq]
    rw [h, log, Array.toArray_toList]
    rfl

end LexicalError

end ScriptLexer
