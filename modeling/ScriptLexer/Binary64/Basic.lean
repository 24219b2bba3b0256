/-!
# Binary64 numbers

A binary64 number is its 64 bits: a sign, an exponent field of 11 bits and a fraction of 52.  Without the sign bit the
pattern is a natural number, the `magnitude`, and numbers of one sign are ordered as their magnitudes.  The absolute
value of every finite number is a natural multiple of `2 ^ -1074`; `units` is that multiple, so statements about
exact values are statements about natural numbers.  Powers are written with `Nat.pow`, since `^` between numerals
depends on the instances in scope.
-/

namespace ScriptLexer

/-- A binary64 number, given by its bits. -/
structure Binary64 where
  bits : UInt64
deriving DecidableEq, Repr

namespace Binary64

/-- The magnitude of infinity; larger ones are not numbers. -/
abbrev infinityMagnitude : Nat := 2047 * Nat.pow 2 52

/-- Whether the sign bit is set; it may be on a zero. -/
def isNegative (x : Binary64) : Bool :=
  Nat.pow 2 63 ≤ x.bits.toNat

/-- The bits without the sign, as a natural number. -/
def magnitude (x : Binary64) : Nat :=
  x.bits.toNat % Nat.pow 2 63

def isNaN (x : Binary64) : Bool :=
  infinityMagnitude < x.magnitude

def isFinite (x : Binary64) : Bool :=
  x.magnitude < infinityMagnitude

/-- The number without a sign bit that has the given magnitude. -/
def ofMagnitude (m : Nat) : Binary64 :=
  ⟨UInt64.ofNat m⟩

/-- The exponent field: `0` for zero and the subnormal numbers. -/
def exponentField (x : Binary64) : Nat :=
  x.magnitude / Nat.pow 2 52

/-- The significand, with the hidden bit of a normal number. -/
def significand (x : Binary64) : Nat :=
  if x.exponentField = 0 then x.magnitude % Nat.pow 2 52 else Nat.pow 2 52 + x.magnitude % Nat.pow 2 52

/-- The absolute value of a finite number, in units of `2 ^ -1074`. -/
def units (x : Binary64) : Nat :=
  x.significand * Nat.pow 2 (x.exponentField - 1)

/-- The magnitude, negated where the sign bit is set.  Both zeros have the key `0`. -/
def key (x : Binary64) : Int :=
  if x.isNegative then -(x.magnitude : Int) else x.magnitude

/-- The order of two numbers by value, or `none` if either is not a number. -/
def compare? (x y : Binary64) : Option Ordering :=
  if x.isNaN || y.isNaN then none else some (compare x.key y.key)

/-- Equality by value: the two zeros are equal, and what is not a number equals nothing. -/
instance : BEq Binary64 :=
  ⟨fun x y => x.compare? y == some .eq⟩

theorem magnitude_ofMagnitude {m : Nat} (h : m < Nat.pow 2 63) : (ofMagnitude m).magnitude = m := by
  rw [Nat.pow_eq] at h
  simp only [magnitude, ofMagnitude, UInt64.toNat_ofNat', Nat.pow_eq]
  omega

theorem isNegative_ofMagnitude {m : Nat} (h : m < Nat.pow 2 63) : (ofMagnitude m).isNegative = false := by
  rw [Nat.pow_eq] at h
  simp only [isNegative, ofMagnitude, UInt64.toNat_ofNat', Nat.pow_eq, decide_eq_false_iff_not]
  omega

end Binary64

end ScriptLexer
