import ScriptLexer.Proofs.Occurrence

/-!
# Maximal munch

The pieces of a script follow each other without a gap, and each is the longest start of the bytes not yet read that
is in any class (`tokenize_maximal_munch`).  The tokens are the lexemes among the pieces and the errors are the faults,
both in the order of the script.
-/

namespace ScriptLexer

/-- The piece is in the class of its shape.  Any other start of the bytes not yet read that is in a class is
shorter. -/
def Occurrence.IsLongest (o : Occurrence) : Prop :=
  o.piece.shape.Admits o.piece.bytes o.after ∧
    ∀ (s : Piece.Shape) (p rest : List UInt8), p ++ rest = o.piece.bytes ++ o.after → s.Admits p rest →
      p.length < o.piece.bytes.length ∨ (s = o.piece.shape ∧ p = o.piece.bytes)

private theorem Occurrence.isLongest {o : Occurrence} (h : o.piece.shape.Admits o.piece.bytes o.after)
    (hs : o.piece.shape.Stops o.piece.bytes o.after) : o.IsLongest := by
  refine ⟨h, fun s p rest e hp => ?_⟩
  obtain ⟨b, q, hb⟩ := List.exists_cons_of_ne_nil h.ne_nil
  have hbr : b :: (q ++ o.after) = o.piece.bytes ++ o.after := by rw [hb, List.cons_append]
  have hcut := h.cut_eq hs hbr
  rcases hp.length_lt_or_cut_eq (hbr.trans e.symm) with hl | hl
  · rw [hcut] at hl
    exact Or.inl hl
  · rw [hcut, Prod.mk.injEq] at hl
    exact Or.inr ⟨hl.1.symm, (List.append_inj e hl.2.symm).1⟩

private theorem Occurrence.flatten_ofSource (source : String) :
    ((ofSource source).map fun o => o.piece.bytes).flatten = Text.bytes source := by
  have e : (ofSource source).map (fun o => o.piece.bytes) = (Piece.ofBytes (Text.bytes source)).map Piece.bytes := by
    rw [← map_piece_listFrom [] (Piece.ofBytes (Text.bytes source)), List.map_map]
    rfl
  rw [e, Piece.flatten_ofBytes]

/-- Scanning a script takes one step for each of its pieces.  The pieces are not empty, and together they are the
script, byte for byte.  Each is the longest start of the bytes not yet read that is in a class.  The tokens before the
last are those of the lexemes, the errors are those of the faults, one by one. -/
theorem tokenize_maximal_munch {σ : Type} [Sink σ LexicalError] (source : String) (sink : σ) :
    Scan.ofSource source = ((Occurrence.ofSource source).map Occurrence.piece).foldl Scan.step {} ∧
    ((Occurrence.ofSource source).map fun o => o.piece.bytes).flatten = Text.bytes source ∧
    (∀ o ∈ Occurrence.ofSource source,
      o.piece.bytes ≠ [] ∧ o.before ++ o.piece.bytes ++ o.after = Text.bytes source ∧ o.IsLongest) ∧
    List.Forall₂ (fun o t => o.piece.Reads t) ((Occurrence.ofSource source).filter Occurrence.isLexeme)
      (tokenize source sink).1.toList.dropLast ∧
    List.Forall₂ (fun o e => o.piece.Faults e) ((Occurrence.ofSource source).filter Occurrence.isFault)
      (tokenize source ({} : Storage LexicalError)).2.errors.toList := by
  refine ⟨?_, Occurrence.flatten_ofSource source, ?_, ?_, ?_⟩
  · rw [Occurrence.ofSource, Occurrence.map_piece_listFrom, Scan.ofSource]
  · intro o ho
    obtain ⟨e, h, hs⟩ := Occurrence.admits_of_mem ho
    exact ⟨h.ne_nil, e, Occurrence.isLongest h hs⟩
  · rw [TokenStream.dropLast_toList]
    exact (Occurrence.forall₂_tokens source sink).imp fun _ _ h => h.1
  · exact (Occurrence.forall₂_errors source).imp fun _ _ h => h.1

example : (Piece.ofBytes (Text.bytes "1.5.2===")).map Piece.shape =
    [.number, .mark .dot, .number, .mark .equalEqual, .mark .equal] := by
  decide +kernel

end ScriptLexer
