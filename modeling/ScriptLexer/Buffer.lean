/-!
# Output buffers

A buffer takes bytes up to its capacity, if it has one.  A write that does not fit fills the buffer and fails, and
after a failure nothing more is written.  How the bytes are divided into writes makes no difference
(`Buffer.writeAll_eq_write`).
-/

namespace ScriptLexer

/-- Bytes written so far. -/
structure Buffer where
  /-- The most bytes the buffer can hold, or `none` if there is no limit. -/
  capacity : Option Nat := none
  contents : Array UInt8 := #[]
deriving DecidableEq, Repr

/-- Why a write fails. -/
inductive WriteError where
  | full
deriving DecidableEq, Repr

def WriteError.message : WriteError → String
  | full => "failed to write whole buffer"

namespace Buffer

/-- The bytes, cut to what the buffer can still take. -/
def fitting (b : Buffer) (bytes : List UInt8) : List UInt8 :=
  match b.capacity with
  | none => bytes
  | some n => bytes.take (n - b.contents.size)

/-- Writes what fits of the bytes, and fails if that is not all. -/
def write (b : Buffer) (bytes : List UInt8) : Buffer × Option WriteError :=
  let taken := b.fitting bytes
  ({ b with contents := b.contents ++ taken }, if taken.length < bytes.length then some .full else none)

/-- Writes fragments one after the other, up to the first failure. -/
def writeAll (b : Buffer) : List (List UInt8) → Buffer × Option WriteError
  | [] => (b, none)
  | bytes :: rest =>
    match b.write bytes with
    | (b, none) => b.writeAll rest
    | (b, some e) => (b, some e)

theorem fitting_isPrefix (b : Buffer) (bytes : List UInt8) : b.fitting bytes <+: bytes := by
  unfold fitting
  split
  · exact List.prefix_rfl
  · exact List.take_prefix _ _

/-- After bytes that do not all fit there is no room for more. -/
theorem write_append_of_lt {b : Buffer} {xs : List UInt8} (h : (b.fitting xs).length < xs.length) (ys : List UInt8) :
    b.write (xs ++ ys) = b.write xs := by
  have e : b.fitting (xs ++ ys) = b.fitting xs := by
    unfold fitting at h ⊢
    split at h
    · omega
    · rw [List.length_take] at h
      exact List.take_append_of_le_length (by omega)
  have hlen : (b.fitting xs).length < (xs ++ ys).length := by
    rw [List.length_append]
    omega
  rw [write, write, e, if_pos h, if_pos hlen]

/-- Bytes that fit are written before those after them. -/
theorem write_append {b : Buffer} {xs : List UInt8} (h : b.fitting xs = xs) (ys : List UInt8) :
    b.write (xs ++ ys) = ({ b with contents := b.contents ++ xs } : Buffer).write ys := by
  have hsize : (b.contents ++ xs).size = b.contents.size + xs.length := by
    rw [← Array.length_toList, Array.toList_appendList, List.length_append, Array.length_toList]
  have happ (zs : List UInt8) : b.contents ++ (xs ++ zs) = b.contents ++ xs ++ zs := by
    rw [← Array.toList_inj]
    simp only [Array.toList_appendList, List.append_assoc]
  have e : b.fitting (xs ++ ys) = xs ++ ({ b with contents := b.contents ++ xs } : Buffer).fitting ys := by
    unfold fitting at h ⊢
    dsimp only
    split
    · rfl
    · next n hn =>
      simp only [hn] at h
      rw [List.take_append, h, hsize, Nat.sub_sub]
  simp only [write, e, happ, List.length_append, Nat.add_lt_add_iff_left]

/-- Writing fragments one after the other is writing all their bytes at once. -/
theorem writeAll_eq_write (b : Buffer) (fragments : List (List UInt8)) :
    b.writeAll fragments = b.write fragments.flatten := by
  induction fragments generalizing b with
  | nil =>
    have h : b.fitting [] = [] := List.prefix_nil.1 (b.fitting_isPrefix [])
    rw [List.flatten_nil, writeAll, write, h, Array.appendList_nil]
    rfl
  | cons bytes rest ih =>
    rw [List.flatten_cons, writeAll]
    by_cases h : (b.fitting bytes).length < bytes.length
    · rw [write_append_of_lt h, write, if_pos h]
    · have hfit : b.fitting bytes = bytes := (b.fitting_isPrefix bytes).eq_of_length_le (Nat.not_lt.1 h)
      rw [write_append hfit, ← ih, write, hfit, if_neg (Nat.lt_irrefl _)]

end Buffer

end ScriptLexer
