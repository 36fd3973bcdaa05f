import Mathlib.Data.List.Pairwise
import Formula.Token.Lexer

/-!
# Spans in order

A position is before another, or the same, unless `compare` puts it behind (`Position.compare_ne_gt_iff`). Reading a
text goes forward only, so that neither the starts nor the ends of tokens go back from one token to the next
(`inOrder_tokenize`).
-/

namespace Formula

open Text (Position Span)

namespace Text.Position

variable {p q r : Position}

theorem compare_ne_gt_iff : p.compare q ≠ .gt ↔ p.line < q.line ∨ p.line = q.line ∧ p.column ≤ q.column := by
  rw [compare, ne_eq, Ordering.then_eq_gt, Nat.compare_eq_gt, Nat.compare_eq_eq, Nat.compare_eq_gt]
  omega

theorem compare_self_ne_gt (p : Position) : p.compare p ≠ .gt :=
  compare_ne_gt_iff.mpr (.inr ⟨rfl, Nat.le_refl _⟩)

theorem compare_ne_gt_trans (h : p.compare q ≠ .gt) (h' : q.compare r ≠ .gt) : p.compare r ≠ .gt := by
  rw [compare_ne_gt_iff] at h h' ⊢
  omega

/-- Reading goes forward. -/
theorem compare_after_ne_gt (p : Position) (text : List Char) : p.compare (p.after text) ≠ .gt := by
  induction text generalizing p with
  | nil => exact compare_self_ne_gt p
  | cons c text ih =>
    have hnext : p.compare (p.next c) ≠ .gt := by
      rw [compare_ne_gt_iff, next]
      split
      · exact .inl (Nat.lt_succ_self _)
      · exact .inr ⟨rfl, Nat.le_succ _⟩
    exact compare_ne_gt_trans hnext (ih (p.next c))

end Text.Position

/-- Neither the starts nor the ends of the tokens go back from one to the next. -/
structure InOrder (tokens : List Token) : Prop where
  starts : tokens.Pairwise fun a b => a.span.start.compare b.span.start ≠ .gt
  stops : tokens.Pairwise fun a b => a.span.stop.compare b.span.stop ≠ .gt

theorem InOrder.sublist {tokens part : List Token} (h : InOrder tokens) (hpart : part.Sublist tokens) : InOrder part :=
  ⟨h.starts.sublist hpart, h.stops.sublist hpart⟩

theorem inOrder_singleton (t : Token) : InOrder [t] :=
  ⟨List.pairwise_singleton _ t, List.pairwise_singleton _ t⟩

/-- Tokens with one span can stand in front of tokens that start and stop no earlier. -/
theorem InOrder.append {front back : List Token} {span : Span} (hfront : ∀ t ∈ front, t.span = span)
    (hback : InOrder back)
    (h : ∀ t ∈ back, span.start.compare t.span.start ≠ .gt ∧ span.stop.compare t.span.stop ≠ .gt) :
    InOrder (front ++ back) := by
  constructor
  · refine List.pairwise_append.mpr ⟨List.pairwise_of_forall_mem_list fun a ha b hb => ?_, hback.starts,
      fun a ha b hb => ?_⟩
    · rw [hfront a ha, hfront b hb]
      exact Position.compare_self_ne_gt _
    · rw [hfront a ha]
      exact (h b hb).1
  · refine List.pairwise_append.mpr ⟨List.pairwise_of_forall_mem_list fun a ha b hb => ?_, hback.stops,
      fun a ha b hb => ?_⟩
    · rw [hfront a ha, hfront b hb]
      exact Position.compare_self_ne_gt _
    · rw [hfront a ha]
      exact (h b hb).2

namespace Lexer

/-- The tokens of a scan are in order, and none starts or stops in front of the place where it begins. -/
theorem inOrder_scan (fuel : Nat) (position : Position) (text : List Char) :
    InOrder (scan fuel position text).tokens ∧ ∀ t ∈ (scan fuel position text).tokens,
      position.compare t.span.start ≠ .gt ∧ position.compare t.span.stop ≠ .gt := by
  have hfinish : ∀ position : Position, InOrder [Token.finish position] ∧ ∀ t ∈ [Token.finish position],
      position.compare t.span.start ≠ .gt ∧ position.compare t.span.stop ≠ .gt := fun position =>
    ⟨inOrder_singleton _, List.forall_mem_singleton.mpr
      ⟨Position.compare_self_ne_gt position, Position.compare_self_ne_gt position⟩⟩
  induction fuel generalizing position text with
  | zero => cases text <;> exact hfinish position
  | succ fuel ih =>
    cases text with
    | nil => exact hfinish position
    | cons c cs =>
      rw [scan_succ]
      cases piece? (c :: cs) with
      | none => exact ⟨⟨.nil, .nil⟩, fun _ ht => nomatch ht⟩
      | some found =>
        obtain ⟨length, piece⟩ := found
        dsimp only
        obtain ⟨horder, hbehind⟩ := ih (position.after ((c :: cs).take length)) ((c :: cs).drop length)
        have hforward := Position.compare_after_ne_gt position ((c :: cs).take length)
        refine ⟨.append (List.forall_mem_map.mpr fun _ _ => rfl) horder fun t ht => ⟨?_, (hbehind t ht).2⟩,
          List.forall_mem_append.mpr ⟨List.forall_mem_map.mpr fun _ _ => ?_, fun t ht => ?_⟩⟩
        · exact Position.compare_ne_gt_trans hforward (hbehind t ht).1
        · exact ⟨Position.compare_self_ne_gt position, hforward⟩
        · exact (hbehind t ht).imp (Position.compare_ne_gt_trans hforward) (Position.compare_ne_gt_trans hforward)

end Lexer

/-- The tokens of a text are in order. -/
theorem inOrder_tokenize (text : String) : InOrder (tokenize text).tokens :=
  (Lexer.inOrder_scan _ _ _).1

end Formula
