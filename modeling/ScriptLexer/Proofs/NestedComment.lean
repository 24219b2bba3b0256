import ScriptLexer.Piece.Comment

/-!
# The language of nested comments

A closed comment is `/*`, a body and `*/`, and a body is made of closed comments and of bytes that form no delimiter
with the byte after them (`IsComment`).  The key facts: the bytes of a body bring the depth counter back to the depth
at which it entered them (`commentLength?_body`), the counter stops only after a body (`exists_body`), and so it finds
exactly the closed comments (`commentLength?_eq_some_iff`).
-/

namespace ScriptLexer.Piece

/-- The two bytes open or close a comment. -/
def IsDelimiter (a b : UInt8) : Prop :=
  (a = Byte.slash ∧ b = Byte.star) ∨ (a = Byte.star ∧ b = Byte.slash)

/-- What stands between the delimiters of a closed comment.  The byte after the last one of a body is the star of the
closing delimiter. -/
inductive CommentBody : List UInt8 → Prop where
  | nil : CommentBody []
  | nested {u v : List UInt8} : CommentBody u → CommentBody v →
      CommentBody (Byte.slash :: Byte.star :: (u ++ Byte.star :: Byte.slash :: v))
  | byte {a : UInt8} {w : List UInt8} : ¬ IsDelimiter a (w.headD Byte.star) → CommentBody w → CommentBody (a :: w)

def IsComment (p : List UInt8) : Prop :=
  ∃ w, CommentBody w ∧ p = Byte.slash :: Byte.star :: (w ++ [Byte.star, Byte.slash])

/-! ### One step of the counter -/

theorem commentLength?_open (depth n : Nat) (r : List UInt8) :
    commentLength? depth n (Byte.slash :: Byte.star :: r) = commentLength? (depth + 1) (n + 2) r := by
  rw [commentLength?]
  simp

theorem commentLength?_close (depth n : Nat) (r : List UInt8) :
    commentLength? depth n (Byte.star :: Byte.slash :: r) =
      if depth = 0 then some (n + 2) else commentLength? (depth - 1) (n + 2) r := by
  have h : Byte.star ≠ Byte.slash := by decide
  rw [commentLength?]
  simp [h]

private theorem commentLength?_byte {a b : UInt8} (h : ¬ IsDelimiter a b) (depth n : Nat) (r : List UInt8) :
    commentLength? depth n (a :: b :: r) = commentLength? depth (n + 1) (b :: r) := by
  unfold IsDelimiter at h
  rw [not_or] at h
  rw [commentLength?]
  simp [h.1, h.2]

/-- A byte that does not begin a delimiter is passed alone, at the end as well. -/
theorem commentLength?_cons {a : UInt8} {r : List UInt8} (h : ∀ b ∈ r.head?, ¬ IsDelimiter a b) (depth n : Nat) :
    commentLength? depth n (a :: r) = commentLength? depth (n + 1) r := by
  cases r with
  | nil => rfl
  | cons b r => exact commentLength?_byte (h b rfl) depth n r

/-! ### Bodies and the counter -/

private theorem exists_cons_append_close (w r : List UInt8) :
    ∃ t, w ++ Byte.star :: Byte.slash :: r = w.headD Byte.star :: t := by
  cases w with
  | nil => exact ⟨_, rfl⟩
  | cons a w => exact ⟨_, rfl⟩

/-- A body and the closing delimiter after it take the counter one level out. -/
theorem commentLength?_body {w : List UInt8} (h : CommentBody w) (depth n : Nat) (r : List UInt8) :
    commentLength? depth n (w ++ Byte.star :: Byte.slash :: r) =
      if depth = 0 then some (n + w.length + 2) else commentLength? (depth - 1) (n + w.length + 2) r := by
  induction h generalizing depth n r with
  | nil => exact commentLength?_close depth n r
  | @nested u v _ _ ihu ihv =>
    have e : Byte.slash :: Byte.star :: (u ++ Byte.star :: Byte.slash :: v) ++ Byte.star :: Byte.slash :: r =
        Byte.slash :: Byte.star :: (u ++ Byte.star :: Byte.slash :: (v ++ Byte.star :: Byte.slash :: r)) := by simp
    have hn : n + 2 + u.length + 2 + v.length + 2 =
        n + (Byte.slash :: Byte.star :: (u ++ Byte.star :: Byte.slash :: v)).length + 2 := by
      simp only [List.length_cons, List.length_append]
      omega
    rw [e, commentLength?_open, ihu, if_neg (Nat.succ_ne_zero depth), Nat.add_sub_cancel, ihv, hn]
  | @byte a w ha _ ih =>
    obtain ⟨t, ht⟩ := exists_cons_append_close w r
    have hn : n + 1 + w.length + 2 = n + (a :: w).length + 2 := by
      rw [List.length_cons]
      omega
    rw [List.cons_append, ht, commentLength?_byte ha, ← ht, ih, hn]

/-- Where the counter stops there stands a body and the closing delimiter after it. -/
theorem exists_body {depth n k : Nat} {bs : List UInt8} (h : commentLength? depth n bs = some k) :
    ∃ w r, CommentBody w ∧ bs = w ++ Byte.star :: Byte.slash :: r := by
  -- a nested comment is followed by a second body, so the hypothesis is needed for all shorter lists
  induction hl : bs.length using Nat.strongRecOn generalizing depth n bs with
  | _ l ih =>
    subst hl
    match bs, h with
    | a :: b :: r, h =>
      by_cases ho : a = Byte.slash ∧ b = Byte.star
      · obtain ⟨rfl, rfl⟩ := ho
        rw [commentLength?_open] at h
        obtain ⟨u, r', hu, rfl⟩ := ih _ (by rw [List.length_cons, List.length_cons]; omega) h rfl
        rw [commentLength?_body hu, if_neg (Nat.succ_ne_zero depth)] at h
        obtain ⟨v, r'', hv, rfl⟩ := ih _ (by simp; omega) h rfl
        exact ⟨_, r'', .nested hu hv, by simp⟩
      · by_cases hc : a = Byte.star ∧ b = Byte.slash
        · obtain ⟨rfl, rfl⟩ := hc
          exact ⟨[], r, .nil, rfl⟩
        · have hd : ¬ IsDelimiter a b := fun hd => hd.elim ho hc
          rw [commentLength?_byte hd] at h
          obtain ⟨w, r', hw, e⟩ := ih _ (by simp) h rfl
          obtain ⟨t, ht⟩ := exists_cons_append_close w r'
          rw [ht, List.cons.injEq] at e
          rw [e.1] at hd
          exact ⟨a :: w, r', .byte hd hw, by rw [List.cons_append, ht, e.1, e.2]⟩

/-- The counter finds the closed comments, and no others. -/
theorem commentLength?_eq_some_iff {bs : List UInt8} {k : Nat} :
    commentLength? 0 2 bs = some k ↔
      ∃ w r, CommentBody w ∧ bs = w ++ Byte.star :: Byte.slash :: r ∧ k = w.length + 4 := by
  constructor
  · intro h
    obtain ⟨w, r, hw, rfl⟩ := exists_body h
    rw [commentLength?_body hw, if_pos rfl, Option.some.injEq] at h
    exact ⟨w, r, hw, rfl, by omega⟩
  · rintro ⟨w, r, hw, rfl, rfl⟩
    rw [commentLength?_body hw, if_pos rfl, Option.some.injEq]
    omega

theorem commentLength?_of_isComment {q : List UInt8} (h : IsComment (Byte.slash :: Byte.star :: q)) (r : List UInt8) :
    commentLength? 0 2 (q ++ r) = some (q.length + 2) := by
  obtain ⟨w, hw, e⟩ := h
  simp only [List.cons.injEq, true_and] at e
  rw [commentLength?_eq_some_iff]
  exact ⟨w, r, hw, by simp [e], by simp [e]⟩

theorem isComment_take {bs : List UInt8} {k : Nat} (h : commentLength? 0 2 bs = some k) :
    IsComment ((Byte.slash :: Byte.star :: bs).take k) := by
  obtain ⟨w, r, hw, rfl, rfl⟩ := commentLength?_eq_some_iff.1 h
  refine ⟨w, hw, ?_⟩
  have e : Byte.slash :: Byte.star :: (w ++ Byte.star :: Byte.slash :: r) =
      Byte.slash :: Byte.star :: (w ++ [Byte.star, Byte.slash]) ++ r := by simp
  rw [e, List.take_left' (by simp)]

theorem IsComment.exists_cons {p : List UInt8} (h : IsComment p) : ∃ q, p = Byte.slash :: Byte.star :: q := by
  obtain ⟨w, _, rfl⟩ := h
  exact ⟨_, rfl⟩

theorem commentLength?_eq_none_iff {bs : List UInt8} :
    commentLength? 0 2 bs = none ↔ ∀ p, p <+: Byte.slash :: Byte.star :: bs → ¬ IsComment p := by
  constructor
  · rintro h p ⟨r, hr⟩ hp
    obtain ⟨q, rfl⟩ := hp.exists_cons
    simp only [List.cons_append, List.cons.injEq, true_and] at hr
    rw [← hr, commentLength?_of_isComment hp] at h
    cases h
  · intro h
    rw [Option.eq_none_iff_forall_ne_some]
    intro k hk
    exact h _ (List.take_prefix _ _) (isComment_take hk)

end ScriptLexer.Piece
