import Mathlib.Data.List.DropRight
import Mathlib.Data.List.ReduceOption
import ScriptLexer.Diagnostic.Hub
import ScriptLexer.Proofs.Occurrence

/-!
# Sinks and their history

What the sinks of a hub hold is told by the commands that were carried out: a command delivers diagnostics to some of
the sinks, or empties some of them (`Command.events`), and a sink holds what was delivered to it since it was last
emptied (`pending`).  Every command keeps this (`Holds.run`), so it is true after any commands (`holds_after`).
-/

namespace ScriptLexer

namespace Hub

/-- A diagnostic, with its type forgotten but for lexical errors. -/
inductive Delivery where
  | notice (n : Notice)
  | error (e : LexicalError)
deriving DecidableEq, Repr

namespace Delivery

def line : Delivery → Nat
  | notice n => n.line
  | error e => e.line

def message : Delivery → String
  | notice n => n.text
  | error e => e.message

instance : Diagnostic Delivery :=
  ⟨line, message⟩

end Delivery

/-- The sinks that hold something. -/
inductive Target where
  | reporter | storage | counter
deriving DecidableEq, Repr

/-! ### What commands do to sinks -/

namespace Command

/-- The diagnostics that a command hands out, in their order. -/
def delivered : Command → List Delivery
  | report line message => [.notice ⟨line, message⟩]
  | receive _ e => [.error e]
  | notify _ n => [.notice n]
  | tokenize _ source => (Scan.ofSource source).errors.toList.map .error
  | reset _ | take | write _ => []

/-- Whether a sink gets the diagnostics that a command hands out. -/
def reaches : Command → Target → Bool
  | report _ _, .reporter => true
  | receive sinks _, .reporter | notify sinks _, .reporter | tokenize sinks _, .reporter => sinks.reporter
  | receive sinks _, .storage | tokenize sinks _, .storage => sinks.storage
  | receive sinks _, .counter | notify sinks _, .counter | tokenize sinks _, .counter => sinks.counter
  | _, _ => false

/-- Whether a command empties a sink. -/
def empties : Command → Target → Bool
  | reset sinks, .reporter => sinks.reporter
  | reset sinks, .counter => sinks.counter
  | take, .storage => true
  | _, _ => false

/-- What a sink gets from a command. -/
def deliveredTo (t : Target) (c : Command) : List Delivery :=
  if c.reaches t then c.delivered else []

/-- What happens to a sink at a command: deliveries, or `none` if it is emptied. -/
def events (t : Target) (c : Command) : List (Option Delivery) :=
  if c.empties t then [none] else (c.deliveredTo t).map some

end Command

/-- What was delivered after the last `none`. -/
def sinceEmptied {α : Type} (events : List (Option α)) : List α :=
  (events.rtakeWhile Option.isSome).reduceOption

/-- What was delivered to a sink since it was last emptied. -/
def pending (t : Target) (commands : List Command) : List Delivery :=
  sinceEmptied (commands.flatMap (Command.events t))

section SinceEmptied

variable {α : Type} (events : List (Option α))

private theorem sinceEmptied_append_none : sinceEmptied (events ++ [none]) = [] := by
  rw [sinceEmptied, List.rtakeWhile_concat_neg _ _ _ (by simp)]
  rfl

private theorem sinceEmptied_append_map_some (xs : List α) :
    sinceEmptied (events ++ xs.map some) = sinceEmptied events ++ xs := by
  induction xs using List.reverseRecOn with
  | nil => simp
  | append_singleton xs x ih =>
    rw [sinceEmptied] at ih
    rw [List.map_append, List.map_singleton, ← List.append_assoc, sinceEmptied,
      List.rtakeWhile_concat_pos _ _ _ rfl, List.reduceOption_append, ih, List.append_assoc]
    rfl

end SinceEmptied

private theorem pending_append (t : Target) (cs : List Command) (c : Command) :
    pending t (cs ++ [c]) = if c.empties t then [] else pending t cs ++ c.deliveredTo t := by
  rw [pending, List.flatMap_append, List.flatMap_singleton, Command.events]
  split
  · exact sinceEmptied_append_none _
  · exact sinceEmptied_append_map_some _ _

example : pending .reporter [.report 1 "a", .reset ⟨true, false, false, false⟩, .report 2 "b", .write (some 3)] =
    [.notice ⟨2, "b"⟩] := by
  decide

/-! ### What sinks do with deliveries -/

theorem receiveAll_reporter {ε : Type} [Diagnostic ε] (r : Reporter) (es : List ε) :
    Sink.receiveAll r es.toArray =
      ⟨r.messages ++ (es.map fun e => Reporter.entry (Diagnostic.line e) (Diagnostic.message e)).toArray,
        if es = [] then r.status else .error⟩ := by
  rw [Sink.receiveAll, List.foldl_toArray]
  induction es generalizing r with
  | nil => simp
  | cons e es ih =>
    rw [List.foldl_cons, ih]
    simp [Sink.receive, Reporter.report]

private theorem receiveAll_counter {ε : Type} (k : Counter) (es : List ε) :
    Sink.receiveAll k es.toArray = ⟨k.count + es.length⟩ := by
  rw [Sink.receiveAll, List.foldl_toArray]
  induction es generalizing k with
  | nil => rfl
  | cons e es ih =>
    rw [List.foldl_cons, ih, List.length_cons]
    simp only [Sink.receive, Counter.mk.injEq]
    omega

/-- A sink that does not tell a delivery from the error in it. -/
private theorem receiveAll_error {σ : Type} [Sink σ LexicalError] [Sink σ Delivery]
    (h : ∀ (s : σ) (e : LexicalError), Sink.receive s (Delivery.error e) = Sink.receive s e) (s : σ)
    (es : Array LexicalError) : Sink.receiveAll s es = Sink.receiveAll s (es.toList.map Delivery.error).toArray := by
  simp only [Sink.receiveAll, ← Array.foldl_toList, List.foldl_map, h]

/-! ### One command -/

variable (h : Hub) (c : Command)

/-- The reporter takes what a command delivers to it, or is emptied. -/
private theorem reporter_run :
    (h.run c).1.reporter =
      if c.empties .reporter then {} else Sink.receiveAll h.reporter (c.deliveredTo .reporter).toArray := by
  cases c with
  | receive sinks | notify sinks | reset sinks =>
    obtain ⟨_ | _, _, _, _⟩ := sinks <;> rfl
  | tokenize sinks source =>
    obtain ⟨_ | _, _, _, _⟩ := sinks
    · rfl
    · exact receiveAll_error (fun _ _ => rfl) h.reporter _
  | report | take | write => rfl

/-- The counter takes what a command delivers to it, or is emptied. -/
private theorem counter_run :
    (h.run c).1.counter =
      if c.empties .counter then {} else Sink.receiveAll h.counter (c.deliveredTo .counter).toArray := by
  cases c with
  | receive sinks | notify sinks | reset sinks =>
    obtain ⟨_, _, _ | _, _⟩ := sinks <;> rfl
  | tokenize sinks source =>
    obtain ⟨_, _, _ | _, _⟩ := sinks
    · rfl
    · exact receiveAll_error (fun _ _ => rfl) h.counter _
  | report | take | write => rfl

/-- The storage keeps the errors that a command delivers to it, or is emptied. -/
private theorem storage_run :
    (h.run c).1.storage.errors.toList.map Delivery.error =
      if c.empties .storage then [] else h.storage.errors.toList.map Delivery.error ++ c.deliveredTo .storage := by
  have keep (x : Storage LexicalError) : x.errors.toList.map Delivery.error =
      x.errors.toList.map Delivery.error ++ [] := (List.append_nil _).symm
  cases c with
  | receive sinks e =>
    obtain ⟨_, _ | _, _, _⟩ := sinks
    · exact keep _
    · simp [run, receive, Sink.receive, Command.empties, Command.deliveredTo, Command.reaches, Command.delivered]
  | tokenize sinks source =>
    obtain ⟨a, _ | _, b, d⟩ := sinks
    · exact keep _
    · have e := Storage.receiveAll_eq h.storage (Scan.ofSource source).errors.toList
      rw [Array.toArray_toList] at e
      have e' : (h.run (.tokenize ⟨a, true, b, d⟩ source)).1.storage =
          Sink.receiveAll h.storage (Scan.ofSource source).errors := rfl
      rw [e', e, Array.toList_append, List.map_append]
      rfl
  | report | notify | reset | write => exact keep _
  | take => rfl

/-! ### All commands -/

/-- What the sinks hold is what was delivered to them since they were last emptied. -/
structure Holds (h : Hub) (commands : List Command) : Prop where
  messages : h.reporter.messages.toList =
    (pending .reporter commands).map fun d => "line " ++ toString d.line ++ ": " ++ d.message
  status : h.reporter.status = .error ↔ h.reporter.messages.toList ≠ []
  hasErrors : h.reporter.hasErrors = true ↔ h.reporter.messages.toList ≠ []
  storage : h.storage.errors.toList.map Delivery.error = pending .storage commands
  counter : h.counter.count = (pending .counter commands).length

/-- A new hub after some commands. -/
def after (commands : List Command) : Hub :=
  commands.foldl (fun h c => (h.run c).1) {}

private theorem after_append (cs : List Command) : after (cs ++ [c]) = ((after cs).run c).1 := by
  rw [after, List.foldl_append]
  rfl

private theorem Holds.empty : Holds {} [] where
  messages := rfl
  status := ⟨nofun, fun h => absurd rfl h⟩
  hasErrors := ⟨nofun, fun h => absurd rfl h⟩
  storage := rfl
  counter := rfl

/-- The status and the messages stay in step, whatever is delivered. -/
private theorem status_receiveAll {r : Reporter} (hr : r.status = .error ↔ r.messages.toList ≠ [])
    (ds : List Delivery) :
    (Sink.receiveAll r ds.toArray).status = .error ↔ (Sink.receiveAll r ds.toArray).messages.toList ≠ [] := by
  rw [receiveAll_reporter, Array.toList_append]
  by_cases hd : ds = []
  · simpa [hd] using hr
  · simp [hd]

theorem Holds.run {h : Hub} {cs : List Command} (hh : h.Holds cs) (c : Command) : (h.run c).1.Holds (cs ++ [c]) := by
  have hstatus : (h.run c).1.reporter.status = .error ↔ (h.run c).1.reporter.messages.toList ≠ [] := by
    rw [reporter_run]
    split
    · exact ⟨nofun, fun h => absurd rfl h⟩
    · exact status_receiveAll hh.status _
  refine ⟨?_, hstatus, ?_, ?_, ?_⟩
  · rw [reporter_run, pending_append]
    split
    · rfl
    · rw [receiveAll_reporter, Array.toList_append, hh.messages, List.map_append]
      rfl
  · rw [← hstatus, Reporter.hasErrors, beq_iff_eq]
  · rw [storage_run, pending_append, hh.storage]
  · rw [counter_run, pending_append]
    split
    · rfl
    · rw [receiveAll_counter, hh.counter, List.length_append]

theorem holds_after (cs : List Command) : (after cs).Holds cs := by
  induction cs using List.reverseRecOn with
  | nil => exact .empty
  | append_singleton cs c ih =>
    rw [after_append]
    exact ih.run c

/-! ### Tokenizing into sinks -/

/-- What a script does to the selected sinks, and what it is answered with. -/
structure Tokenizes (h : Hub) (sinks : Selection) (source : String) (errors : List LexicalError)
    (stream : TokenStream) : Prop where
  reply : (h.run (.tokenize sinks source)).2 = .tokens stream
  messages : (h.run (.tokenize sinks source)).1.reporter.messages.toList = h.reporter.messages.toList ++
    if sinks.reporter then errors.map fun e => "line " ++ toString e.line ++ ": " ++ e.message else []
  storage : (h.run (.tokenize sinks source)).1.storage.errors.toList = h.storage.errors.toList ++
    if sinks.storage then errors else []
  counter : (h.run (.tokenize sinks source)).1.counter.count = h.counter.count +
    if sinks.counter then errors.length else 0

private theorem tokenizes (h : Hub) (sinks : Selection) (source : String) :
    h.Tokenizes sinks source (Scan.ofSource source).errors.toList (ScriptLexer.tokenize source h.discard).1 := by
  have hr := receiveAll_reporter h.reporter (Scan.ofSource source).errors.toList
  have hs := Storage.receiveAll_eq h.storage (Scan.ofSource source).errors.toList
  have hk := receiveAll_counter h.counter (Scan.ofSource source).errors.toList
  rw [Array.toArray_toList] at hr hs hk
  constructor
  · rfl
  · have e : (h.run (.tokenize sinks source)).1.reporter =
        if sinks.reporter then Sink.receiveAll h.reporter (Scan.ofSource source).errors else h.reporter := rfl
    rw [e]
    cases sinks.reporter
    · exact (List.append_nil _).symm
    · rw [if_pos rfl, if_pos rfl, hr, Array.toList_append]
      rfl
  · have e : (h.run (.tokenize sinks source)).1.storage =
        if sinks.storage then Sink.receiveAll h.storage (Scan.ofSource source).errors else h.storage := rfl
    rw [e]
    cases sinks.storage
    · exact (List.append_nil _).symm
    · rw [if_pos rfl, if_pos rfl, hs, Array.toList_append]
  · have e : (h.run (.tokenize sinks source)).1.counter =
        if sinks.counter then Sink.receiveAll h.counter (Scan.ofSource source).errors else h.counter := rfl
    rw [e]
    cases sinks.counter
    · rfl
    · rw [if_pos rfl, if_pos rfl, hk]

end Hub

/-- After any commands to a new hub, each sink holds what was delivered to it since it was last emptied, and the
reporter has the status of an error exactly if it holds something.  A script that is then tokenized adds its errors, in
the order in which their bytes stand in it, to what the selected sinks hold; its tokens depend on no sink. -/
theorem sinks_hold_history (commands : List Hub.Command) :
    (Hub.after commands).Holds commands ∧
    ∀ (sinks : Selection) (source : String), ∃ errors stream,
      List.Forall₂ (fun o e => o.piece.Faults e ∧ e.line = o.endLine)
        ((Occurrence.ofSource source).filter Occurrence.isFault) errors ∧
      (∀ (σ : Type) [Sink σ LexicalError] (sink : σ), (tokenize source sink).1 = stream) ∧
      (Hub.after commands).Tokenizes sinks source errors stream := by
  refine ⟨Hub.holds_after commands, fun sinks source => ?_⟩
  have he := Occurrence.forall₂_errors source
  have e : (tokenize source ({} : Storage LexicalError)).2 = Sink.receiveAll {} (Scan.ofSource source).errors := rfl
  have hs := Storage.receiveAll_eq ({} : Storage LexicalError) (Scan.ofSource source).errors.toList
  rw [Array.toArray_toList] at hs
  rw [e, hs, Array.toList_append] at he
  exact ⟨_, _, he, fun _ _ _ => rfl, Hub.tokenizes _ sinks source⟩

end ScriptLexer
