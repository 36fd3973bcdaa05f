import Formula.Proofs.Value.Exact
import Formula.Value.Substitution

/-!
# What operations give

An operation on values gives a number, a truth value or a constant, one of its operands, or the node that stands for
the operation itself. `Result` says so, and here is one lemma for each operation; what an operation keeps up is read
off its result. Sums and products give a row of terms or factors, the operands' own and numbers (`ofTerms_row`,
`ofFactors_row`).
-/

namespace Formula.Value

/-- The results of an operation with the given operands: leaves, operands, and the node of the operation. -/
inductive Result (operands : List Value) (node : Value) : Value → Prop where
  | number (n : Number) : Result operands node (.number n)
  | bool (b : Bool) : Result operands node (.bool b)
  | constant (c : Constant) : Result operands node (.constant c)
  | operand {v : Value} (h : v ∈ operands) : Result operands node v
  | node : Result operands node node

variable {a b : Value}

theorem pow_result (a b : Value) : Result [a, b] (.power a b) (pow a b) := by
  have hrest : Result [a, b] (.power a b) (if a.asNumber?.any Number.isOne then one else .power a b) := by
    split
    · exact .number _
    · exact .node
  unfold pow
  cases b.asNumber? with
  | none => exact hrest
  | some e =>
    simp only [Option.bind_eq_bind, Option.bind_some]
    split
    · rename_i v hv
      split at hv
      · cases hv
        exact .number _
      split at hv
      · cases hv
        exact .operand List.mem_cons_self
      obtain ⟨n, -, hv⟩ := Option.bind_eq_some_iff.mp hv
      split at hv
      · cases hv
        exact .number _
      · obtain ⟨-, hv⟩ := Option.ite_none_right_eq_some.mp hv
        cases hv
        exact .constant _
    · exact hrest

theorem mod_result (a b : Value) : Result [a, b] (.remainder a b) (mod a b) := by
  unfold mod
  dsimp only
  split
  · exact .number _
  · exact .node

theorem fact_result (a : Value) : Result [a] (.factorial a) a.fact := by
  unfold fact
  split
  · split
    · exact .number _
    · split
      · exact .constant _
      · exact .node
  · exact .node

theorem abs_result (a : Value) : Result [a] (.absolute a) a.abs := by
  unfold abs
  split
  · exact .number _
  · exact .operand List.mem_cons_self
  · exact .node

/-- A builtin gives the node of its application, or that of an absolute value. -/
theorem apply_result (name : String) (args : List Value) :
    Result args (.application name args) (apply name args) ∨
      ∃ a, name = "abs" ∧ args = [a] ∧ apply name args = a.abs := by
  unfold apply
  dsimp only
  split
  · exact .inr ⟨_, rfl, rfl, rfl⟩
  · exact .inl .node
  · split
    · exact .inl (.number _)
    · exact .inl .node

theorem relate_result (op : Relation) (a b : Value) : Result [a, b] (.relation op a b) (relate op a b) := by
  unfold relate
  split
  · exact .bool _
  · exact .node

theorem restrict_result (a b : Value) : Result [a, b] (.intersection a b) (restrict a b) := by
  unfold restrict
  split
  · exact .operand (List.mem_cons_of_mem _ List.mem_cons_self)
  · exact .operand (List.mem_cons_of_mem _ List.mem_cons_self)
  · exact .node

theorem limitOf_result (var : String) (a b : Value) : Result [a, b] (.limit var a b) (limitOf var a b) := by
  unfold limitOf
  split
  · exact .node
  · exact .operand (List.mem_cons_of_mem _ List.mem_cons_self)

/-! ## Rows -/

/-- The row comes from the given one: its items, and numbers. -/
def RowFrom (vs ws : List Value) : Prop := ∀ w ∈ ws, w ∈ vs ∨ ∃ n, w = .number n

theorem rowFrom_symbolic (vs : List Value) : RowFrom vs (symbolic vs) :=
  fun _ hw => .inl (List.mem_of_mem_filter hw)

theorem ofTerms_row (ts : List Value) : ∃ us, RowFrom ts us ∧ ofTerms ts = collect .sum us := by
  unfold ofTerms
  dsimp only
  split
  · exact ⟨_, rowFrom_symbolic ts, rfl⟩
  · refine ⟨_, List.forall_mem_append.mpr ⟨rowFrom_symbolic ts, ?_⟩, rfl⟩
    exact List.forall_mem_singleton.mpr (.inr ⟨_, rfl⟩)

theorem ofFactors_row (fs : List Value) : ∃ gs, RowFrom fs gs ∧ ofFactors fs = collect .product gs := by
  unfold ofFactors
  dsimp only
  split
  · exact ⟨[.number _], List.forall_mem_singleton.mpr (.inr ⟨_, rfl⟩), rfl⟩
  · split
    · exact ⟨_, rowFrom_symbolic fs, rfl⟩
    · refine ⟨_, List.forall_mem_cons.mpr ⟨.inr ⟨_, rfl⟩, rowFrom_symbolic fs⟩, rfl⟩

end Formula.Value
