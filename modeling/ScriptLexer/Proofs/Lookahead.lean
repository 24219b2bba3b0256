import ScriptLexer.Proofs.FirstPiece
import ScriptLexer.Proofs.Reading

/-!
# Two bytes of lookahead

Whether a piece goes on depends on at most two bytes after it.  Blank bytes and the bytes of characters beyond ASCII
are inert: they continue no piece but a line comment.  The key fact: a piece that stops before some bytes stops before
all bytes that begin like them or with an inert byte (`Shape.Stops.of_beginsLike`).
-/

namespace ScriptLexer

/-! ### Inert bytes -/

/-- Blank bytes and bytes beyond ASCII. -/
def Byte.isInert (b : UInt8) : Bool :=
  isBlank b || 0x80 ≤ b

theorem Byte.isInert_of_isBlank {b : UInt8} (h : isBlank b) : isInert b := by
  simp [isInert, h]

namespace Piece

private theorem isInert_cases {b : UInt8} (h : Byte.isInert b) : Byte.isBlank b ∨ ¬ b < 0x80 := by
  simpa [Byte.isInert] using h

private theorem isWordByte_eq_false_of_isInert {b : UInt8} (h : Byte.isInert b) : Byte.isWordByte b = false := by
  rw [Bool.eq_false_iff]
  intro hw
  rcases isInert_cases h with hb | hb
  · rw [Byte.isWordByte, Bool.or_eq_true] at hw
    rcases hw with hw | hw
    · exact absurd hb (by simp [isBlank_eq_false_of_isWordStart hw])
    · exact absurd hb (by simp [isBlank_eq_false_of_isDigit hw])
  · exact hb (isWordByte_lt hw)

private theorem isDigit_eq_false_of_isInert {b : UInt8} (h : Byte.isInert b) : Byte.isDigit b = false := by
  have hw := isWordByte_eq_false_of_isInert h
  rw [Byte.isWordByte, Bool.or_eq_false_iff] at hw
  exact hw.2

private theorem isInert_eq_false_of_mem_bytes (m : Mark) : ∀ b ∈ m.bytes, Byte.isInert b = false := by
  have table : (m.bytes.all fun b => !Byte.isInert b) = true := by
    cases m <;> decide
  simpa using table

private theorem ofBytes?_append_of_isInert (m : Mark) {b : UInt8} (h : Byte.isInert b) :
    Mark.ofBytes? (m.bytes ++ [b]) = none := by
  rw [Option.eq_none_iff_forall_ne_some]
  intro m' hm
  have hb : b ∈ m'.bytes := by
    rw [Mark.ofBytes?_eq_some_iff.1 hm]
    simp
  rw [isInert_eq_false_of_mem_bytes m' b hb] at h
  cases h

end Piece

/-! ### Bytes that begin alike -/

namespace Byte

/-- The bytes are none, or their first byte is that of the other bytes or inert. -/
def BeginsLike (bs bs' : List UInt8) : Prop :=
  ∀ c ∈ bs.head?, c ∈ bs'.head? ∨ isInert c

theorem beginsLike_cons (c : UInt8) (bs bs' : List UInt8) : BeginsLike (c :: bs) (c :: bs') :=
  fun _ hx => Or.inl hx

theorem beginsLike_cons_of_isInert {c : UInt8} (h : isInert c) (bs bs' : List UInt8) : BeginsLike (c :: bs) bs' := by
  intro x hx
  rw [List.head?_cons, Option.mem_some_iff] at hx
  exact Or.inr (hx ▸ h)

theorem beginsLike_append {c : UInt8} (h : isInert c) (bs t : List UInt8) : BeginsLike (bs ++ c :: t) bs := by
  cases bs with
  | nil => exact beginsLike_cons_of_isInert h t []
  | cons x bs => exact beginsLike_cons x _ bs

theorem Halts.of_beginsLike {p : UInt8 → Bool} {bs bs' : List UInt8} (h : Halts p bs') (hb : BeginsLike bs bs')
    (hp : ∀ c, isInert c → p c = false) : Halts p bs := by
  intro c hc
  rcases hb c hc with hc | hc
  · exact h c hc
  · exact hp c hc

end Byte

namespace Piece

/-- A piece that stops before some bytes stops before others that begin like them.  A second byte matters only after a
point, and a line comment is the one piece that an inert byte continues. -/
theorem Shape.Stops.of_beginsLike {s : Shape} {p rest rest' : List UInt8} (h : s.Stops p rest)
    (h1 : Byte.BeginsLike rest' rest)
    (h2 : ∀ r', rest' = Byte.dot :: r' → ∃ r, rest = Byte.dot :: r ∧ Byte.BeginsLike r' r)
    (hl : s = .lineComment → Byte.Halts (· != Byte.newline) rest') : s.Stops p rest' := by
  cases s with
  | mark m =>
    refine ⟨fun c hc => ?_, fun hm c hc => ?_⟩
    · rcases h1 c hc with hc | hc
      · exact h.1 c hc
      · exact ofBytes?_append_of_isInert m hc
    · rcases h1 c hc with hc | hc
      · exact h.2 hm c hc
      · constructor <;> rintro rfl <;> exact absurd hc (by decide)
  | word =>
    have hr : Byte.Halts Byte.isWordByte rest := h
    exact hr.of_beginsLike h1 fun c hc => isWordByte_eq_false_of_isInert hc
  | number =>
    have hd := fun c (hc : Byte.isInert c) => isDigit_eq_false_of_isInert hc
    refine ⟨h.1.of_beginsLike h1 hd, ?_⟩
    intro hp r' e
    obtain ⟨r, e', hr⟩ := h2 r' e
    exact (h.2 hp r e').of_beginsLike hr hd
  | lineComment => exact hl rfl
  | _ => trivial

end Piece

end ScriptLexer
