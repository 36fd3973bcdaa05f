import Formula.Expr.Evaluation
import Formula.Proofs.Value.Grouping

/-!
# Grouping in trees

A tree of sums, or of products, over a row of operands evaluates to the value of its grouping (`evaluateIn_expr`), so
that all trees over one row have the same value. `grouping_does_not_matter` says it of values, of trees and of ranges.
-/

namespace Formula

open Value (AllExact Groupable)

/-- The operator between two operands. -/
def BigOperator.operator : BigOperator → Operator
  | sum => .add
  | product => .mul

namespace Grouping

variable {op : BigOperator}

/-- The tree of operands that are grouped so. -/
def expr (op : BigOperator) : Grouping Expr → Expr
  | item e => e
  | node l r => .binary op.operator (l.expr op) (r.expr op)

/-- A tree evaluates to the value of its grouping. -/
theorem evaluateIn_expr {params : List String} {val : Expr → Value} {g : Grouping Expr}
    (h : ∀ e ∈ g.items, e.evaluateIn params = .ok (val e)) :
    (g.expr op).evaluateIn params = .ok ((g.map val).value op) := by
  induction g with
  | item e => exact h e List.mem_cons_self
  | node l r ihl ihr =>
    obtain ⟨hl, hr⟩ := List.forall_mem_append.mp h
    rw [expr, Expr.evaluateIn, ihl hl, ihr hr]
    cases op <;> rfl

end Grouping

namespace Value

/-- Sums and products of normal values with fractions for numbers and without infinities are associative and have zero
and one as neutral elements, where no number on the way is a double. So all trees over a row of operands evaluate to the
same value, and a range can be cut in two. -/
theorem grouping_does_not_matter (op : BigOperator) :
    (∀ a b c : Value, Groupable op a → Groupable op b → Groupable op c →
      AllExact (op.made a b ++ op.made (op.combine a b) c) → AllExact (op.made b c ++ op.made a (op.combine b c)) →
      op.combine (op.combine a b) c = op.combine a (op.combine b c)) ∧
    (∀ a : Value, Groupable op a → op.combine op.unit a = a ∧ op.combine a op.unit = a) ∧
    (∀ (g g' : Grouping Expr) (params : List String) (val : Expr → Value), g.items = g'.items →
      (∀ e ∈ g.items, e.evaluateIn params = .ok (val e) ∧ Groupable op (val e)) →
      AllExact ((g.map val).made op) → AllExact ((g'.map val).made op) →
      ∃ v, (g.expr op).evaluateIn params = .ok v ∧ (g'.expr op).evaluateIn params = .ok v) ∧
    ∀ (var : String) (body : Value) (lo m hi : Int), lo ≤ m → m < hi → hi - lo < longRange →
      (∀ k, lo ≤ k → k ≤ hi → Groupable op (body.subst var (.int k))) →
      AllExact (Made.range op var body lo hi) →
      AllExact (Made.range op var body lo m ++ Made.range op var body (m + 1) hi ++
        op.made (big op var (.int lo) (.int m) body) (big op var (.int (m + 1)) (.int hi) body)) →
      big op var (.int lo) (.int hi) body =
        op.combine (big op var (.int lo) (.int m) body) (big op var (.int (m + 1)) (.int hi) body) := by
  refine ⟨fun a b c ha hb hc hl hr => ?_, fun a ha => ha.combine_unit, ?_, ?_⟩
  · have hleft : AllExact ((Grouping.node (.node (.item a) (.item b)) (.item c)).made op) := by
      simpa [Grouping.made, Grouping.value] using hl
    have hright : AllExact ((Grouping.node (.item a) (.node (.item b) (.item c))).made op) := by
      simpa [Grouping.made, Grouping.value] using hr
    have habc : ∀ v ∈ [a, b, c], Groupable op v :=
      List.forall_mem_cons.mpr ⟨ha, List.forall_mem_cons.mpr ⟨hb, List.forall_mem_singleton.mpr hc⟩⟩
    have hitems : (Grouping.node (.node (.item a) (.item b)) (.item c)).items =
        (Grouping.node (.item a) (.node (.item b) (.item c))).items := rfl
    exact Grouping.value_eq hitems habc hleft hright
  · intro g g' params val hitems h hm hm'
    have hvalue : (g.map val).value op = (g'.map val).value op := by
      refine Grouping.value_eq ?_ ?_ hm hm'
      · rw [Grouping.items_map, Grouping.items_map, hitems]
      · rw [Grouping.items_map]
        exact List.forall_mem_map.mpr fun e he => (h e he).2
    refine ⟨_, Grouping.evaluateIn_expr fun e he => (h e he).1, ?_⟩
    rw [hvalue]
    exact Grouping.evaluateIn_expr fun e he => (h e (hitems ▸ he)).1
  · intro var body lo m hi hlo hhi hlen hterms hwhole hparts
    obtain ⟨hsides, hboth⟩ := hparts.append
    obtain ⟨hleft, hright⟩ := hsides.append
    exact big_cut hlo hhi hlen hterms hwhole hleft hright hboth

/-- The operands `x`, `1/2` and `3` grouped in two ways, and the sum of the numbers from one to three in two parts. -/
theorem grouping_does_not_matter_sum :
    let x : Value := .symbol "x"
    let half : Value := .number (.ratio 1 2)
    let tree : Expr := .binary .add (.binary .add (.variable "x") (.number "0.5" (.ratio 1 2))) (.number "3" (.ofInt 3))
    let tree' : Expr :=
      .binary .add (.variable "x") (.binary .add (.number "0.5" (.ratio 1 2)) (.number "3" (.ofInt 3)))
    add (add x half) (int 3) = add x (add half (int 3)) ∧ add zero x = x ∧
      (∃ v, tree.evaluateIn [] = .ok v ∧ tree'.evaluateIn [] = .ok v) ∧
      big .sum "k" (int 1) (int 3) (.symbol "k") =
        add (big .sum "k" (int 1) (int 1) (.symbol "k")) (big .sum "k" (int 2) (int 3) (.symbol "k")) := by
  obtain ⟨hassoc, hunit, htrees, hcut⟩ := grouping_does_not_matter .sum
  have hx : Groupable .sum (.symbol "x") := groupable_symbol "x"
  have hhalf : Groupable .sum (.number (.ratio 1 2)) :=
    groupable_number ⟨by decide, by decide, by decide, by decide⟩ rfl
  have hint {n : Int} (hn : Int128.InRange n) : Groupable .sum (int n) := groupable_number (Number.normal_ofInt hn) rfl
  refine ⟨hassoc _ _ _ hx hhalf (hint (by decide)) ?_ ?_, (hunit _ hx).1, ?_, ?_⟩
  · unfold AllExact
    decide +kernel
  · unfold AllExact
    decide +kernel
  · let x : Grouping Expr := .item (.variable "x")
    let half : Grouping Expr := .item (.number "0.5" (.ratio 1 2))
    let three : Grouping Expr := .item (.number "3" (.ofInt 3))
    -- the operands are leaves, which have values
    let val : Expr → Value := fun e => e.evaluate.toOption.getD zero
    refine htrees (.node (.node x half) three) (.node x (.node half three)) [] val rfl ?_ ?_ ?_
    · exact List.forall_mem_cons.mpr ⟨⟨rfl, hx⟩, List.forall_mem_cons.mpr ⟨⟨rfl, hhalf⟩,
        List.forall_mem_singleton.mpr ⟨rfl, hint (by decide)⟩⟩⟩
    · unfold AllExact
      decide +kernel
    · unfold AllExact
      decide +kernel
  · refine hcut "k" (.symbol "k") 1 1 3 (by decide) (by decide) (by decide) (fun k hlo hhi => ?_) ?_ ?_
    · refine hint (n := k) ?_
      simp only [Int128.InRange, Int128.least, Int128.greatest]
      omega
    · unfold AllExact
      decide +kernel
    · unfold AllExact
      decide +kernel

end Value

end Formula
