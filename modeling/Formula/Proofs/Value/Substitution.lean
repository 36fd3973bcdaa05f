import Formula.Proofs.Value.Capture

/-!
# Substitution is exact

A value is read as a rational number where its symbols stand for numbers (`Reads`). If symbols are replaced by values
that read as the numbers they stand for, the result reads as the same number (`reads_replaceAll`). As for the operations
on values, this is so where none of the numbers that substitution computes on its way is a double (`Made.replaced`).
-/

namespace Formula.Value

variable {ρ ρ' : String → ℚ} {v : Value} {vs : List Value} {p q : ℚ} {qs : List ℚ} {pairs : List (Value × Value)}

/-- The numbers that folding a row computes. -/
def Made.fold (op : Value → Value → Value) (made : Value → Value → List Number) : Value → List Value → List Number
  | _, [] => []
  | acc, v :: vs => made acc v ++ Made.fold op made (op acc v) vs

mutual

/-- The numbers that substitution in an arithmetic value computes. -/
def Made.replaced (pairs : List (Value × Value)) (v : Value) : List Number :=
  match v with
  | .sum ts => Made.replacedList pairs ts ++ Made.fold Value.add Made.add .zero (replaceList big pairs ts)
  | .product fs => Made.replacedList pairs fs ++ Made.fold Value.mul Made.mul .one (replaceList big pairs fs)
  | .power a b =>
    Made.replaced pairs a ++ Made.replaced pairs b ++ Made.pow (a.replaceAll pairs) (b.replaceAll pairs)
  | .remainder a b =>
    Made.replaced pairs a ++ Made.replaced pairs b ++ Made.mod (a.replaceAll pairs) (b.replaceAll pairs)
  | .factorial a => Made.replaced pairs a ++ Made.fact (a.replaceAll pairs)
  | .absolute a => Made.replaced pairs a ++ Made.abs (a.replaceAll pairs)
  | _ => []
termination_by structural v

/-- The numbers that substitution in a row computes. -/
def Made.replacedList (pairs : List (Value × Value)) : List Value → List Number
  | [] => []
  | v :: vs => Made.replaced pairs v ++ Made.replacedList pairs vs
termination_by structural vs => vs

end

/-- What is put in the place of a symbol reads as the number that it stands for, and other symbols keep theirs. -/
def Instantiates (ρ : String → ℚ) (pairs : List (Value × Value)) (ρ' : String → ℚ) : Prop :=
  ∀ s, (∃ w, replacement? pairs (.symbol s) = some w ∧ Reads ρ w (ρ' s)) ∨
    replacement? pairs (.symbol s) = none ∧ ρ s = ρ' s

theorem reads_fold_add (h : List.Forall₂ (Reads ρ) vs qs) {acc : Value} (ha : Reads ρ acc p)
    (hm : AllExact (Made.fold Value.add Made.add acc vs)) : Reads ρ (vs.foldl Value.add acc) (p + qs.sum) := by
  induction h generalizing acc p with
  | nil =>
    rw [List.sum_nil, add_zero]
    exact ha
  | cons h _ ih =>
    obtain ⟨hstep, hrest⟩ := hm.append
    rw [List.sum_cons, ← add_assoc]
    exact ih (ha.add h hstep) hrest

theorem reads_fold_mul (h : List.Forall₂ (Reads ρ) vs qs) {acc : Value} (ha : Reads ρ acc p)
    (hm : AllExact (Made.fold Value.mul Made.mul acc vs)) : Reads ρ (vs.foldl Value.mul acc) (p * qs.prod) := by
  induction h generalizing acc p with
  | nil =>
    rw [List.prod_nil, mul_one]
    exact ha
  | cons h _ ih =>
    obtain ⟨hstep, hrest⟩ := hm.append
    rw [List.prod_cons, ← mul_assoc]
    exact ih (ha.mul h hstep) hrest

theorem reads_power {a b : Value} (h : Reads ρ (.power a b) q) :
    ∃ p r, Reads ρ a p ∧ Reads ρ b r ∧ Exact.power? p r = some q := by
  obtain ⟨h, ha, hb⟩ := h
  obtain ⟨p, hp, h⟩ := Option.bind_eq_some_iff.mp h
  obtain ⟨r, hr, h⟩ := Option.bind_eq_some_iff.mp h
  exact ⟨p, r, ⟨hp, ha⟩, ⟨hr, hb⟩, h⟩

theorem reads_remainder {a b : Value} (h : Reads ρ (.remainder a b) q) :
    ∃ p r, Reads ρ a p ∧ Reads ρ b r ∧ Exact.remainder? p r = some q := by
  obtain ⟨h, ha, hb⟩ := h
  obtain ⟨p, hp, h⟩ := Option.bind_eq_some_iff.mp h
  obtain ⟨r, hr, h⟩ := Option.bind_eq_some_iff.mp h
  exact ⟨p, r, ⟨hp, ha⟩, ⟨hr, hb⟩, h⟩

theorem reads_factorial {a : Value} (h : Reads ρ (.factorial a) q) :
    ∃ p, Reads ρ a p ∧ Exact.factorial? p = some q := by
  obtain ⟨h, ha⟩ := h
  obtain ⟨p, hp, h⟩ := Option.bind_eq_some_iff.mp h
  exact ⟨p, ⟨hp, ha⟩, h⟩

theorem reads_absolute {a : Value} (h : Reads ρ (.absolute a) q) : ∃ p, Reads ρ a p ∧ |p| = q := by
  obtain ⟨h, ha⟩ := h
  obtain ⟨p, hp, h⟩ := Option.map_eq_some_iff.mp h
  exact ⟨p, ⟨hp, ha⟩, h⟩

mutual

/-- Substitution of values that read as what their targets stand for keeps what a value reads as. -/
theorem reads_replaceAll (htargets : Targets pairs) (h : Instantiates ρ pairs ρ') :
    (v : Value) → (q : ℚ) → Reads ρ' v q → AllExact (Made.replaced pairs v) → Reads ρ (v.replaceAll pairs) q := by
  intro v q hv hm
  unfold replaceAll replaceWith
  match v, hv, hm with
  | .symbol s, hv, _ =>
    obtain rfl : ρ' s = q := Option.some.inj hv.1
    rcases h s with ⟨w, hs, hw⟩ | ⟨hs, hρ⟩
    · rw [hs]
      exact hw
    · rw [hs, ← hρ]
      exact ⟨rfl, trivial⟩
  | .number n, hv, _ =>
    rw [htargets.replacement?_eq_none (v := .number _) fun _ => nofun]
    exact reads_number.mpr (reads_number.mp hv)
  | .sum ts, hv, hm =>
    rw [htargets.replacement?_eq_none (v := .sum _) fun _ => nofun]
    obtain ⟨hrow, hfold⟩ := hm.append
    obtain ⟨qs, hts, rfl⟩ := reads_sum.mp hv
    have hts := reads_replaceList htargets h ts qs hts hrow
    rw [← zero_add qs.sum]
    exact reads_fold_add hts (reads_number.mpr (Number.is_ofInt 0)) hfold
  | .product fs, hv, hm =>
    rw [htargets.replacement?_eq_none (v := .product _) fun _ => nofun]
    obtain ⟨hrow, hfold⟩ := hm.append
    obtain ⟨qs, hfs, rfl⟩ := reads_product.mp hv
    have hfs := reads_replaceList htargets h fs qs hfs hrow
    rw [← one_mul qs.prod]
    exact reads_fold_mul hfs reads_one hfold
  | .power a b, hv, hm =>
    rw [htargets.replacement?_eq_none (v := .power _ _) fun _ => nofun]
    obtain ⟨hparts, hpow⟩ := hm.append
    obtain ⟨hma, hmb⟩ := hparts.append
    obtain ⟨p, q, ha, hb, hr⟩ := reads_power hv
    exact (reads_replaceAll htargets h a p ha hma).pow (reads_replaceAll htargets h b q hb hmb) hr hpow
  | .remainder a b, hv, hm =>
    rw [htargets.replacement?_eq_none (v := .remainder _ _) fun _ => nofun]
    obtain ⟨hparts, hmod⟩ := hm.append
    obtain ⟨hma, hmb⟩ := hparts.append
    obtain ⟨p, q, ha, hb, hr⟩ := reads_remainder hv
    exact (reads_replaceAll htargets h a p ha hma).mod (reads_replaceAll htargets h b q hb hmb) hr hmod
  | .factorial a, hv, hm =>
    rw [htargets.replacement?_eq_none (v := .factorial _) fun _ => nofun]
    obtain ⟨hma, hfact⟩ := hm.append
    obtain ⟨p, ha, hr⟩ := reads_factorial hv
    exact (reads_replaceAll htargets h a p ha hma).fact hr hfact
  | .absolute a, hv, hm =>
    rw [htargets.replacement?_eq_none (v := .absolute _) fun _ => nofun]
    obtain ⟨hma, habs⟩ := hm.append
    obtain ⟨p, ha, rfl⟩ := reads_absolute hv
    exact (reads_replaceAll htargets h a p ha hma).abs habs

theorem reads_replaceList (htargets : Targets pairs) (h : Instantiates ρ pairs ρ') :
    (vs : List Value) → (qs : List ℚ) → List.Forall₂ (Reads ρ') vs qs → AllExact (Made.replacedList pairs vs) →
      List.Forall₂ (Reads ρ) (replaceList big pairs vs) qs
  | [], [], _, _ => .nil
  | v :: vs, q :: qs, hvs, hm => by
    cases hvs with
    | cons hv hvs =>
      obtain ⟨hmv, hmvs⟩ := AllExact.append hm
      exact .cons (reads_replaceAll htargets h v q hv hmv) (reads_replaceList htargets h vs qs hvs hmvs)

end

end Formula.Value
