import Formula.Proofs.Number.Arithmetic
import Formula.Proofs.Value.Results
import Formula.Proofs.Value.Substitution
import Formula.Value.Text

/-!
# Minus signs and fractions

Before a value is written, a term with a minus sign is replaced by what is subtracted, and a factor with a negative
exponent by what it is divided by. The new parts are no deeper than the old ones (`depth_of_negated?`,
`depth_of_inverted?`), so that a bound on the depth carries the writing of a value to its end. They read as the negative
and the inverse (`Reads.negated`, `Reads.inverted`), if none of the numbers computed for them is a double.
-/

namespace Formula.Value

variable {ρ : String → ℚ} {v w : Value} {vs : List Value} {q : ℚ}

/-! ## Factors -/

section

variable {P : Value → Prop} (hnumber : ∀ n, P (.number n)) (hpart : ∀ {fs}, P (.product fs) → ∀ f ∈ fs, P f)

include hpart in
theorem forall_factors (h : P v) : ∀ f ∈ v.factors, P f := by
  unfold factors
  split
  · exact hpart h
  · exact List.forall_mem_singleton.mpr h

include hnumber hpart

/-- What numbers have, and factors of products that have it, is kept by multiplication. -/
theorem forall_factors_mul {a b : Value} (ha : ∀ f ∈ a.factors, P f) (hb : ∀ f ∈ b.factors, P f) :
    ∀ f ∈ (mul a b).factors, P f := by
  obtain ⟨gs, hgs, he⟩ := ofFactors_row (a.factors ++ b.factors)
  have hall : ∀ g ∈ gs, P g := by
    intro g hg
    rcases hgs g hg with hg | ⟨n, rfl⟩
    · exact List.forall_mem_append.mpr ⟨ha, hb⟩ g hg
    · exact hnumber n
  rw [mul, he]
  unfold collect
  split
  · exact forall_factors hpart (hall _ List.mem_cons_self)
  · exact hall

theorem forall_factors_foldl {a : Value} (ha : ∀ f ∈ a.factors, P f) (hvs : ∀ v ∈ vs, P v) :
    ∀ f ∈ (vs.foldl mul a).factors, P f := by
  induction vs generalizing a with
  | nil => exact ha
  | cons v vs ih =>
    obtain ⟨hv, hvs⟩ := List.forall_mem_cons.mp hvs
    exact ih (forall_factors_mul hnumber hpart ha (forall_factors hpart hv)) hvs

/-- The factors of what is subtracted are those of the term, apart from numbers. -/
theorem forall_factors_negated (h : v.negated? = some w) (hv : ∀ f ∈ v.factors, P f) : ∀ f ∈ w.factors, P f := by
  unfold negated? at h
  split at h
  · obtain ⟨-, h⟩ := Option.ite_none_right_eq_some.mp h
    cases h
    exact List.forall_mem_singleton.mpr (hnumber _)
  · obtain ⟨-, h⟩ := Option.ite_none_right_eq_some.mp h
    cases h
    have hone : ∀ f ∈ one.factors, P f := List.forall_mem_singleton.mpr (hnumber _)
    refine forall_factors_foldl hnumber hpart hone (List.forall_mem_cons.mpr ⟨hnumber _, fun f hf => ?_⟩)
    exact hv f (List.mem_cons_of_mem _ hf)
  · cases h

end

/-! ## Depth -/

theorem listDepth_le_iff {d : Nat} : listDepth vs ≤ d ↔ ∀ v ∈ vs, v.depth ≤ d := by
  induction vs with
  | nil => simp [listDepth]
  | cons v vs ih => rw [listDepth, max_le_iff, ih, List.forall_mem_cons]

theorem depth_pos (v : Value) : 0 < v.depth := by
  cases v <;> simp [depth]

theorem depth_lt_of_mem (hv : v ∈ vs) : v.depth < listDepth vs + 1 :=
  Nat.lt_succ_of_le (listDepth_le_iff.mp (Nat.le_refl _) v hv)

/-- A value is deeper than its factors by one at most. -/
theorem depth_le_of_factors {d : Nat} (h : ∀ f ∈ v.factors, f.depth ≤ d) : v.depth ≤ d + 1 := by
  unfold factors at h
  split at h
  · exact Nat.succ_le_succ (listDepth_le_iff.mpr h)
  · exact Nat.le_succ_of_le (h v List.mem_cons_self)

theorem depth_of_negated? (h : v.negated? = some w) : w.depth ≤ v.depth := by
  have hnumber {d : Nat} (hd : 0 < d) (n : Number) : (number n).depth ≤ d := hd
  have hpart {d : Nat} {fs : List Value} (hfs : (product fs).depth ≤ d) : ∀ f ∈ fs, f.depth ≤ d :=
    fun f hf => (depth_lt_of_mem hf).le.trans hfs
  cases v with
  | number n =>
    obtain ⟨-, h⟩ := Option.ite_none_right_eq_some.mp h
    cases h
    exact Nat.le_refl 1
  | product fs =>
    have hpos : 0 < listDepth fs := by
      cases fs with
      | nil => cases h
      | cons f fs => exact Nat.lt_of_lt_of_le f.depth_pos (Nat.le_max_left _ _)
    exact depth_le_of_factors (forall_factors_negated (hnumber hpos) hpart h (listDepth_le_iff.mp (Nat.le_refl _)))
  | _ => cases h

theorem depth_of_inverted? (h : v.inverted? = some w) : w.depth ≤ v.depth := by
  unfold inverted? at h
  split at h
  · rename_i base e
    obtain ⟨-, h⟩ := Option.ite_none_right_eq_some.mp h
    cases h
    have hnode : (power base (.number e)).depth = max base.depth 1 + 1 := rfl
    have hpow := pow_result base (.number e.neg)
    generalize pow base (.number e.neg) = r at hpow
    cases hpow with
    | number | bool | constant => exact depth_pos _
    | operand hr =>
      rcases List.mem_pair.mp hr with rfl | rfl
      · rw [hnode]
        omega
      · exact depth_pos _
    | node => exact Nat.le_refl _
  · cases h

/-! ## Meaning -/

/-- The numbers that are computed for what is subtracted. -/
def Made.negated : Value → List Number
  | .number n => if n.isNegative then [n.neg] else []
  | .product (.number c :: rest) =>
    if c.isNegative then c.neg :: Made.fold Value.mul Made.mul one (.number c.neg :: rest) else []
  | _ => []

/-- The numbers that are computed for what is divided by. -/
def Made.inverted : Value → List Number
  | .power base (.number e) => if e.isNegative then e.neg :: Made.pow base (.number e.neg) else []
  | _ => []

theorem Reads.negated (h : Reads ρ v q) (hw : v.negated? = some w) (hm : AllExact (Made.negated v)) :
    Reads ρ w (-q) := by
  unfold negated? at hw
  split at hw
  · obtain ⟨hneg, hw⟩ := Option.ite_none_right_eq_some.mp hw
    cases hw
    rw [Made.negated, if_pos hneg] at hm
    exact reads_number.mpr ((reads_number.mp h).neg (hm _ List.mem_cons_self))
  · obtain ⟨hneg, hw⟩ := Option.ite_none_right_eq_some.mp hw
    cases hw
    rw [Made.negated, if_pos hneg] at hm
    obtain ⟨qs, hqs, rfl⟩ := reads_product.mp h
    cases hqs with
    | @cons _ r _ rs hc hrest =>
      obtain ⟨hexact, hfold⟩ := List.forall_mem_cons.mp hm
      have hneg : Reads ρ (.number _) (-r) := reads_number.mpr ((reads_number.mp hc).neg hexact)
      have hprod := reads_fold_mul (.cons hneg hrest) reads_one hfold
      rwa [List.prod_cons, one_mul, neg_mul] at hprod
  · cases hw

theorem Reads.inverted (h : Reads ρ v q) (hw : v.inverted? = some w) (hm : AllExact (Made.inverted v)) :
    Reads ρ w q⁻¹ ∧ q ≠ 0 := by
  unfold inverted? at hw
  split at hw
  · obtain ⟨hneg, hw⟩ := Option.ite_none_right_eq_some.mp hw
    cases hw
    rw [Made.inverted, if_pos hneg] at hm
    obtain ⟨hexact, hpow⟩ := List.forall_mem_cons.mp hm
    obtain ⟨p, r, hp, hr, he⟩ := reads_power h
    obtain ⟨hden, hdef, rfl⟩ := power?_eq_some.mp he
    have hr := reads_number.mp hr
    have hlt := hr.isNegative_iff.mp hneg
    have hne : p ≠ 0 := fun h0 => hdef ⟨h0, hlt⟩
    refine ⟨hp.pow (reads_number.mpr (hr.neg hexact)) (power?_eq_some.mpr ⟨?_, fun h0 => hne h0.1, ?_⟩) hpow, ?_⟩
    · rw [Rat.den_neg_eq_den, hden]
    · rw [Rat.num_neg_eq_neg_num, zpow_neg]
    · exact zpow_ne_zero _ hne
  · cases hw

end Formula.Value
