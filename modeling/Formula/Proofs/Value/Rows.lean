import Formula.Proofs.Value.Normal

/-!
# Rows of items

A sum is a row of terms and a product a row of factors. The two are treated alike here: the row of a normal value is
flat, joins to the value again (`Normal.collect_row`), and has one number at most, behind the terms or in front of the
factors (`Normal.terms_split`, `Normal.factors_split`).
-/

namespace Formula

namespace BigOperator

/-- The items of a value seen as a sum or as a product. -/
def row : BigOperator → Value → List Value
  | sum => Value.terms
  | product => Value.factors

def wrap : BigOperator → List Value → Value
  | sum => .sum
  | product => .product

/-- The value of a row of items. -/
def join : BigOperator → List Value → Value
  | sum => Value.ofTerms
  | product => Value.ofFactors

theorem combine_eq {op : BigOperator} (a b : Value) : op.combine a b = op.join (op.row a ++ op.row b) := by
  cases op <;> rfl

end BigOperator

namespace Value

variable {op : BigOperator} {v : Value} {us vs : List Value}

/-! ## Symbolic items and numbers -/

theorem symbolic_append (us vs : List Value) : symbolic (us ++ vs) = symbolic us ++ symbolic vs :=
  List.filter_append ..

theorem numbers_append (us vs : List Value) : numbers (us ++ vs) = numbers us ++ numbers vs :=
  List.filterMap_append

theorem mem_numbers {n : Number} : n ∈ numbers vs ↔ .number n ∈ vs := by
  simp [numbers, List.mem_filterMap, asNumber?_eq_some]

theorem symbolic_of_no_numbers (h : ∀ n, .number n ∉ vs) : symbolic vs = vs ∧ numbers vs = [] := by
  refine ⟨List.filter_eq_self.mpr fun v hv => ?_,
    List.eq_nil_iff_forall_not_mem.mpr fun n hn => h n (mem_numbers.mp hn)⟩
  rw [Option.isNone_iff_eq_none, Option.eq_none_iff_forall_not_mem]
  exact fun n hn => h n (asNumber?_eq_some.mp hn ▸ hv)

/-- A row whose only number can be the last item. -/
theorem split_last (hne : vs ≠ []) (h : ∀ i n, vs[i]? = some (.number n) → i + 1 = vs.length) :
    (∀ n, .number n ∉ vs) ∨ ∃ us n, vs = us ++ [.number n] ∧ symbolic vs = us ∧ numbers vs = [n] := by
  obtain ⟨us, w, rfl⟩ := (List.eq_nil_or_concat vs).resolve_left hne
  rw [List.concat_eq_append] at h ⊢
  have hus : ∀ n, .number n ∉ us := by
    intro n hn
    obtain ⟨i, hi⟩ := List.mem_iff_getElem?.mp hn
    obtain ⟨hlt, -⟩ := List.getElem?_eq_some_iff.mp hi
    have := h i n (by rw [List.getElem?_append_left hlt, hi])
    rw [List.length_append, List.length_singleton] at this
    omega
  obtain ⟨hs, hn⟩ := symbolic_of_no_numbers hus
  cases hw : w.asNumber? with
  | none =>
    refine .inl fun n hmem => ?_
    rcases List.mem_append.mp hmem with hmem | hmem
    · exact hus n hmem
    · rw [← List.mem_singleton.mp hmem] at hw
      cases hw
  | some n =>
    obtain rfl := asNumber?_eq_some.mp hw
    refine .inr ⟨us, n, rfl, ?_, ?_⟩
    · rw [symbolic_append, hs]
      exact List.append_nil us
    · rw [numbers_append, hn]
      rfl

/-- A row whose only number can be the first item. -/
theorem split_first (h : ∀ i n, vs[i]? = some (.number n) → i = 0) :
    (∀ n, .number n ∉ vs) ∨ ∃ us n, vs = .number n :: us ∧ symbolic vs = us ∧ numbers vs = [n] := by
  cases vs with
  | nil => exact .inl fun _ => List.not_mem_nil
  | cons w us =>
    have hus : ∀ n, .number n ∉ us := by
      intro n hn
      obtain ⟨i, hi⟩ := List.mem_iff_getElem?.mp hn
      exact absurd (h (i + 1) n hi) (Nat.succ_ne_zero i)
    obtain ⟨hs, hn⟩ := symbolic_of_no_numbers hus
    cases hw : w.asNumber? with
    | none =>
      refine .inl fun n hmem => ?_
      rcases List.mem_cons.mp hmem with rfl | hmem
      · cases hw
      · exact hus n hmem
    | some n =>
      obtain rfl := asNumber?_eq_some.mp hw
      exact .inr ⟨us, n, rfl, hs, congrArg (n :: ·) hn⟩

/-! ## The row of a value -/

theorem row_wrap : op.row (op.wrap vs) = vs := by
  cases op <;> rfl

theorem row_of_flat (h : ∀ us, v ≠ op.wrap us) : op.row v = [v] := by
  cases op
  · cases v with
    | sum us => exact absurd rfl (h us)
    | _ => rfl
  · cases v with
    | product us => exact absurd rfl (h us)
    | _ => rfl

theorem row_collect (hne : vs ≠ []) (h : ∀ v ∈ vs, ∀ us, v ≠ op.wrap us) : op.row (collect op.wrap vs) = vs := by
  match vs with
  | [] => exact absurd rfl hne
  | [v] => exact row_of_flat (h v List.mem_cons_self)
  | _ :: _ :: _ => cases op <;> rfl

theorem collect_of_two_le {wrap : List Value → Value} (h : 2 ≤ vs.length) : collect wrap vs = wrap vs := by
  match vs, h with
  | _ :: _ :: _, _ => rfl

theorem Normal.two_le (h : (op.wrap vs).Normal) : 2 ≤ vs.length := by
  cases op
  · exact h.node.two_le
  · exact h.node.two_le

theorem Normal.row (h : v.Normal) : ∀ w ∈ op.row v, w.Normal ∧ ∀ us, w ≠ op.wrap us := by
  cases op
  · exact h.terms
  · exact h.factors

theorem Normal.collect_row (h : v.Normal) : Value.collect op.wrap (op.row v) = v := by
  by_cases hv : ∃ us, v = op.wrap us
  · obtain ⟨us, rfl⟩ := hv
    rw [row_wrap, collect_of_two_le h.two_le]
  · rw [row_of_flat fun us hus => hv ⟨us, hus⟩]
    rfl

theorem Normal.terms_number (h : v.Normal) (i : Nat) (n : Number) (hi : v.terms[i]? = some (.number n)) :
    i + 1 = v.terms.length ∧ (2 ≤ v.terms.length → n.isZero = false) := by
  unfold Value.terms at hi ⊢
  split at hi
  · exact ⟨(h.node.number i n hi).1, fun _ => (h.node.number i n hi).2⟩
  · obtain ⟨hlt, -⟩ := List.getElem?_eq_some_iff.mp hi
    rw [List.length_singleton] at hlt ⊢
    omega

theorem Normal.factors_number (h : v.Normal) (i : Nat) (n : Number) (hi : v.factors[i]? = some (.number n)) :
    i = 0 ∧ (2 ≤ v.factors.length → n.isOne = false ∧ (n.isZero = true → v.factors.any isInfinite = true)) := by
  unfold Value.factors at hi ⊢
  split at hi
  · exact ⟨(h.node.number i n hi).1, fun _ => (h.node.number i n hi).2⟩
  · obtain ⟨hlt, -⟩ := List.getElem?_eq_some_iff.mp hi
    rw [List.length_singleton] at hlt ⊢
    omega

theorem Normal.row_ne_nil (h : v.Normal) : op.row v ≠ [] := by
  by_cases hv : ∃ us, v = op.wrap us
  · obtain ⟨us, rfl⟩ := hv
    rw [row_wrap]
    exact List.length_pos_iff.mp (Nat.lt_of_succ_lt h.two_le)
  · rw [row_of_flat fun us hus => hv ⟨us, hus⟩]
    exact List.cons_ne_nil _ _

/-- The number of a sum is its last term. -/
theorem Normal.terms_split (h : v.Normal) : (∀ n, .number n ∉ BigOperator.row .sum v) ∨
    ∃ us n, BigOperator.row .sum v = us ++ [.number n] ∧ symbolic (BigOperator.row .sum v) = us ∧
      numbers (BigOperator.row .sum v) = [n] :=
  split_last h.row_ne_nil fun i n hi => (h.terms_number i n hi).1

/-- The number of a product is its first factor. -/
theorem Normal.factors_split (h : v.Normal) : (∀ n, .number n ∉ BigOperator.row .product v) ∨
    ∃ us n, BigOperator.row .product v = .number n :: us ∧ symbolic (BigOperator.row .product v) = us ∧
      numbers (BigOperator.row .product v) = [n] :=
  split_first fun i n hi => (h.factors_number i n hi).1

end Value

end Formula
