import ScriptLexer.Diagnostic.Hub
import ScriptLexer.Proofs.ReporterLog

/-!
# Logs in buffers that are too small

A buffer with a limit gets as much of a reporter's log as fits, and the write fails exactly if that is not all
(`Reporter.writeTo_limited`).  The fragments before the one that fails are written in full, and none after it is tried
(`Buffer.exists_failing`).  A hub is the same after a write, so any number of writes all find the same log
(`Hub.writes_prefix`).
-/

namespace ScriptLexer

namespace Buffer

/-- Writes that fail do so at a first fragment, and what they leave is what is left after that fragment. -/
theorem exists_failing {b : Buffer} {fragments : List (List UInt8)} {error : WriteError}
    (h : (b.writeAll fragments).2 = some error) :
    ∃ before failing after, fragments = before ++ failing :: after ∧ (b.writeAll before).2 = none ∧
      b.writeAll fragments = (b.writeAll before).1.write failing := by
  induction fragments generalizing b with
  | nil => cases h
  | cons bytes rest ih =>
    rcases e : b.write bytes with ⟨b', _ | _⟩
    · have hcons (fs : List (List UInt8)) : b.writeAll (bytes :: fs) = b'.writeAll fs := by rw [writeAll, e]
      rw [hcons] at h
      obtain ⟨before, failing, after, hf, hb, hw⟩ := ih h
      refine ⟨bytes :: before, failing, after, ?_, ?_, ?_⟩
      · rw [hf, List.cons_append]
      · rw [hcons, hb]
      · rw [hcons, hcons, hw]
    · refine ⟨[], bytes, rest, rfl, rfl, ?_⟩
      show b.writeAll (bytes :: rest) = b.write bytes
      rw [writeAll, e]

end Buffer

/-- A new buffer with a limit gets the bytes of the log up to the limit. -/
theorem Reporter.writeTo_limited (r : Reporter) (n : Nat) :
    r.writeTo { capacity := some n } =
      (⟨some n, (r.log.take n).toArray⟩, if n < r.log.length then some .full else none) := by
  have hlen : (r.log.take n).length < r.log.length ↔ n < r.log.length := by
    rw [List.length_take]
    omega
  rw [writeTo_eq, Buffer.write]
  simp only [Buffer.fitting, List.size_toArray, List.length_nil, Nat.sub_zero, hlen, List.toArray_appendList,
    List.nil_append]

namespace Hub

/-- Carries out commands one after the other and gives the replies in their order. -/
def runAll (h : Hub) : List Command → Hub × List Reply
  | [] => (h, [])
  | c :: cs =>
    let (h, reply) := h.run c
    let (h, replies) := h.runAll cs
    (h, reply :: replies)

/-- What is answered when a log is written to a new buffer: without a limit the whole log is there, with a limit the
bytes up to it, and an error exactly if there are more. -/
def replyTo (log : List UInt8) : Option Nat → Reply
  | none => .written log.toArray none
  | some n => .written (log.take n).toArray (if n < log.length then some .full else none)

private theorem run_write (h : Hub) (capacity : Option Nat) :
    h.run (.write capacity) = (h, replyTo h.reporter.log capacity) := by
  cases capacity with
  | none => simp only [run, Reporter.writeTo_unlimited, replyTo]
  | some n => simp only [run, Reporter.writeTo_limited, replyTo]

private theorem runAll_write (h : Hub) (capacities : List (Option Nat)) :
    h.runAll (capacities.map .write) = (h, capacities.map (replyTo h.reporter.log)) := by
  induction capacities with
  | nil => rfl
  | cons capacity capacities ih => simp only [List.map_cons, runAll, run_write, ih]

/-- Any number of writes of a log to new buffers, some of them too small, leave the hub as it is, and each buffer gets
the start of the same log that fits: one framed line for each text that is kept, in order.  A write fails exactly if the
log does not fit, and then at the first fragment that does not, with nothing written after it. -/
theorem writes_prefix (h : Hub) :
    ∃ log : List UInt8,
      log = h.reporter.messages.toList.flatMap (fun text => Reporter.frame text ++ [Byte.newline]) ∧
      (∀ capacities : List (Option Nat), h.runAll (capacities.map .write) = (h, capacities.map (replyTo log))) ∧
      ∀ n < log.length, ∃ before failing after,
        h.reporter.fragments.map Text.bytes = before ++ failing :: after ∧
        (Buffer.writeAll { capacity := some n } before).2 = none ∧
        ((Buffer.writeAll { capacity := some n } before).1.write failing).2 = some .full ∧
        h.reporter.writeTo { capacity := some n } =
          (Buffer.writeAll { capacity := some n } before).1.write failing := by
  refine ⟨h.reporter.log, h.reporter.log_eq, h.runAll_write, ?_⟩
  intro n hn
  have he : (h.reporter.writeTo { capacity := some n }).2 = some .full := by
    rw [Reporter.writeTo_limited, if_pos hn]
  obtain ⟨before, failing, after, hf, hb, hw⟩ := Buffer.exists_failing he
  exact ⟨before, failing, after, hf, hb, hw ▸ he, hw⟩

/-- A buffer that is full before an empty text takes the text and fails at the code after it. -/
theorem writes_prefix_empty_text :
    ∃ log : List UInt8, log = Reporter.frame "" ++ [Byte.newline] ++ (Reporter.frame "é\n" ++ [Byte.newline]) ∧
      ((⟨⟨#["", "é\n"], .error⟩, {}, {}, {}⟩ : Hub).runAll [.write (some 30), .write none]).2 =
        [.written (log.take 30).toArray (some .full), .written log.toArray none] ∧
      30 < log.length ∧
      ∃ before failing after,
        (⟨#["", "é\n"], .error⟩ : Reporter).fragments.map Text.bytes = before ++ failing :: after ∧
        (Buffer.writeAll { capacity := some 30 } before).2 = none ∧
        ((Buffer.writeAll { capacity := some 30 } before).1.write failing).2 = some .full ∧
        (⟨#["", "é\n"], .error⟩ : Reporter).writeTo { capacity := some 30 } =
          (Buffer.writeAll { capacity := some 30 } before).1.write failing := by
  obtain ⟨log, hlog, hw, hf⟩ := writes_prefix ⟨⟨#["", "é\n"], .error⟩, {}, {}, {}⟩
  have e : log = Reporter.frame "" ++ [Byte.newline] ++ (Reporter.frame "é\n" ++ [Byte.newline]) := by
    rw [hlog]
    rfl
  have hlen : 30 < log.length := by
    rw [e]
    decide
  refine ⟨log, e, ?_, hlen, hf 30 hlen⟩
  have h := congrArg Prod.snd (hw [some 30, none])
  simpa [replyTo, hlen] using h

end Hub

end ScriptLexer
