import Formula.Proofs.Expr.Prints
import Formula.Proofs.Value.Signs

/-!
# What a value is written as

A value is written with its parts in their places, each in brackets if it binds too weakly for its place (`childAt`).
Values are measured by their `strength` for this and trees by the levels of the notation, and the two agree: what needs
no brackets in a place is written at a level that the place accepts (`placeLevel_le`). On the way other values are
written than those to begin with, since the terms behind a minus are negated and the factors below the fraction bar
inverted, and the numbers in these may become doubles. `Writable` is kept by both (`Writable.negated`,
`Writable.inverted`).

As a number, a sum is its first term and the others added or subtracted in a row (`chain_terms`). A product is a sign
(`reads_splitSign`) and the quotient of the factors above the bar and those below it (`reads_quotient`).
-/

namespace Formula.Value

variable {s : Setting} {v w : Value}

/-- If the value is a number, it is normal and written without a sign bit. -/
def Bare (v : Value) : Prop := ∀ n, v = .number n → n.Normal ∧ n.Unsigned

/-- Fractions and names that are read as themselves, under the arithmetic operations, and what may come of them when a
term is negated or a factor inverted. No operand of a power or a factorial is a number with a sign bit. -/
inductive Writable (s : Setting) : Value → Prop where
  | number (n : Number) : Writable s (.number n)
  | bool (b : Bool) : Writable s (.bool b)
  | constant (c : Constant) : Writable s (.constant c)
  | symbol {name : String} (h : s.Resolves name) : Writable s (.symbol name)
  | sum {t : Value} {ts : List Value} (h : ∀ u ∈ t :: ts, Writable s u) : Writable s (.sum (t :: ts))
  | product {fs : List Value} (h : ∀ f ∈ fs, Writable s f) : Writable s (.product fs)
  | power {a b : Value} (ha : Writable s a) (hb : Writable s b) (ha' : a.Bare) (hb' : b.Bare) : Writable s (.power a b)
  | factorial {a : Value} (ha : Writable s a) (ha' : a.Bare) : Writable s (.factorial a)
  | absolute {a : Value} (ha : Writable s a) : Writable s (.absolute a)

namespace Writable

theorem of_product {fs : List Value} (h : (Value.product fs).Writable s) : ∀ f ∈ fs, f.Writable s := by
  cases h
  assumption

theorem of_factors (h : ∀ f ∈ v.factors, f.Writable s) : v.Writable s := by
  unfold factors at h
  split at h
  · exact .product h
  · exact h v List.mem_cons_self

theorem negated (h : v.Writable s) (hw : v.negated? = some w) : w.Writable s :=
  of_factors (forall_factors_negated .number of_product hw (forall_factors of_product h))

theorem inverted (h : v.Writable s) (hw : v.inverted? = some w) : w.Writable s := by
  unfold inverted? at hw
  split at hw
  · rename_i base e
    obtain ⟨hneg, hw⟩ := Option.ite_none_right_eq_some.mp hw
    cases hw
    cases h with
    | power hbase _ hbase' he =>
      have he' : (Value.number e.neg).Bare := by
        intro n hn
        cases hn
        obtain ⟨hnormal, hunsigned⟩ := he e rfl
        exact ⟨hnormal.neg, hunsigned.neg hnormal hneg⟩
      have hpow := pow_result base (.number e.neg)
      generalize pow base (.number e.neg) = r at hpow
      cases hpow with
      | number n => exact .number n
      | bool b => exact .bool b
      | constant c => exact .constant c
      | operand hr =>
        rcases List.mem_pair.mp hr with rfl | rfl
        · exact hbase
        · exact .number _
      | node => exact .power hbase (.number _) hbase' he'
  · cases hw

end Writable

/-! ## Places -/

/-- The level of what a value is written as. -/
def level : Value → Nat
  | .number n => n.level
  | .sum _ => Rule.sumLevel
  | .product _ => Rule.productLevel
  | .power .. => Rule.powerLevel
  | _ => Rule.factorialLevel

/-- The level that a place asks for which takes values of a strength without brackets. -/
def placeLevel : Nat → Nat
  | 0 | 1 => Rule.sumLevel
  | 2 => Rule.productLevel
  | 3 => Rule.signLevel
  | _ => Rule.factorialLevel

/-- The text of a part in its place. -/
def childAt (fuel least : Nat) (v : Value) : String :=
  if v.strength < least then bracketed (v.renderAt fuel) else v.renderAt fuel

theorem placeLevel_mono {k least : Nat} (hk : k ≤ 4) (h : least ≤ k) : placeLevel least ≤ placeLevel k := by
  have hall : ∀ k ≤ 4, ∀ least ≤ k, placeLevel least ≤ placeLevel k := by decide
  exact hall k hk least h

theorem strength_le (v : Value) : v.strength ≤ 4 := by
  unfold strength
  split
  · decide
  · decide
  · decide
  · split <;> decide
  · split <;> decide
  · decide
  · decide

/-- What is strong enough for a place is written at its level. Only a double with a sign is not, where the operand of a
power or a factorial stands. -/
theorem placeLevel_le (hv : v.Writable s) {least : Nat} (hbare : least = 4 → v.Bare) (hl : least ≤ 4)
    (h : least ≤ v.strength) : placeLevel least ≤ v.level := by
  cases hv with
  | number n =>
    cases n with
    | ratio n d =>
      rw [level, Number.level]
      rw [strength] at h
      split at h
      · refine (placeLevel_mono (by decide) h).trans ?_
        split
        · exact Nat.le_refl _
        · split <;> exact of_decide_eq_true rfl
      · rename_i hc
        rw [not_or, not_not] at hc
        rw [if_neg (not_not.mpr hc.2), if_neg hc.1]
        exact (placeLevel_mono (by decide) h).trans (Nat.le_succ _)
    | real x =>
      rw [level, Number.level]
      split
      · rename_i hsigned
        have hne : least ≠ 4 := by
          intro h4
          have hunsigned : Binary.isSigned x = false := (hbare h4 _ rfl).2
          rw [hsigned] at hunsigned
          cases hunsigned
        have hlt : least ≤ 3 := by omega
        exact placeLevel_mono (k := 3) (by decide) hlt
      · exact (placeLevel_mono (by decide) hl).trans (Nat.le_succ _)
  | power =>
    have hpower : Rule.signLevel ≤ Rule.powerLevel := by decide
    exact (placeLevel_mono (strength_le (.power _ _)) h).trans hpower
  | _ => exact placeLevel_mono (strength_le _) h

/-! ## Terms -/

/-- What stands behind the operator in front of a term. -/
def subtracted (t : Value) : Value := t.negated?.getD t

/-- The operator in front of a term. -/
def termOperator (t : Value) : Operator := if t.negated?.isSome then .sub else .add

/-- The numbers that are computed to write a value put together by arithmetic operations. -/
def printedAt : Nat → Value → List Number
  | 0, _ => []
  | fuel + 1, v =>
    match v with
    | .sum (t :: ts) =>
      printedAt fuel t ++ ts.flatMap fun u => Made.negated u ++ printedAt fuel u.subtracted
    | .product fs =>
      (splitSign fs).2.flatMap fun f => Made.inverted f ++ printedAt fuel (f.inverted?.getD f)
    | .power a b => printedAt fuel a ++ printedAt fuel b
    | .factorial a => printedAt fuel a
    | .absolute a => printedAt fuel a
    | _ => []

/-- What a value means, if no number that is computed to write it is a double. -/
def shownAt (fuel : Nat) (v : Value) : Meaning := fun ρ q => AllExact (v.printedAt fuel) ∧ Reads ρ v q

open Setting.Prints (Chain)

variable {ρ : String → ℚ} {fuel : Nat}

theorem chain_terms {ts : List Value} {qs : List ℚ} (h : List.Forall₂ (Reads ρ) ts qs)
    (hm : AllExact (ts.flatMap fun u => Made.negated u ++ printedAt fuel u.subtracted)) (p : ℚ) :
    Chain termOperator (fun u => shownAt fuel u.subtracted) ρ p ts (p + qs.sum) := by
  induction h generalizing p with
  | nil =>
    rw [List.sum_nil, add_zero]
    exact .nil p
  | @cons t q ts qs ht _ ih =>
    rw [List.flatMap_cons] at hm
    obtain ⟨hterm, hrest⟩ := hm.append
    obtain ⟨hneg, hprinted⟩ := hterm.append
    rw [List.sum_cons, ← add_assoc]
    cases hw : t.negated? with
    | none =>
      have hop : t.termOperator = .add := by rw [termOperator, hw]; rfl
      have hsub : t.subtracted = t := by rw [subtracted, hw]; rfl
      exact .cons ⟨hprinted, hsub.symm ▸ ht⟩ (by rw [hop]; rfl) (ih hrest _)
    | some w =>
      have hop : t.termOperator = .sub := by rw [termOperator, hw]; rfl
      have hsub : t.subtracted = w := by rw [subtracted, hw]; rfl
      refine .cons ⟨hprinted, hsub.symm ▸ ht.negated hw hneg⟩ ?_ (ih hrest _)
      rw [hop, Operator.rational?, sub_neg_eq_add]

/-! ## Factors -/

theorem eq_minusOne {c : Number} {q : ℚ} (hc : c.Is q) (h : (c == .minusOne) = true) : q = -1 := by
  rw [hc] at h
  have hparts : (q.num == -1 && (q.den : Int) == 1) = true := h
  rw [Bool.and_eq_true, beq_iff_eq, beq_iff_eq] at hparts
  rw [Number.eq_div q, hparts.1, hparts.2]
  norm_num

/-- The sign in front of a product, as a number. -/
def signValue (sign : String) : ℚ := if sign = "-" then -1 else 1

theorem signValue_mul_self (sign : String) : signValue sign * signValue sign = 1 := by
  unfold signValue
  split <;> norm_num

/-- A coefficient of minus one is taken off the factors as a sign. -/
theorem splitSign_cases (fs : List Value) :
    splitSign fs = ("", fs) ∨
      ∃ c f rest, fs = .number c :: f :: rest ∧ (c == .minusOne) = true ∧ splitSign fs = ("-", f :: rest) := by
  unfold splitSign
  split
  · split
    · exact .inr ⟨_, _, _, rfl, ‹_›, rfl⟩
    · exact .inl rfl
  · exact .inl rfl

theorem splitSign_sign (fs : List Value) : (splitSign fs).1 = "" ∨ (splitSign fs).1 = "-" := by
  rcases splitSign_cases fs with h | ⟨_, _, _, -, -, h⟩ <;> rw [h]
  · exact .inl rfl
  · exact .inr rfl

theorem mem_of_splitSign {fs : List Value} {f : Value} (hf : f ∈ (splitSign fs).2) : f ∈ fs := by
  rcases splitSign_cases fs with h | ⟨_, _, _, rfl, -, h⟩ <;> rw [h] at hf
  · exact hf
  · exact List.mem_cons_of_mem _ hf

theorem reads_splitSign {fs : List Value} {qs : List ℚ} (h : List.Forall₂ (Reads ρ) fs qs) :
    ∃ rs, List.Forall₂ (Reads ρ) (splitSign fs).2 rs ∧ qs.prod = signValue (splitSign fs).1 * rs.prod := by
  rcases splitSign_cases fs with he | ⟨c, f, rest, rfl, hc, he⟩ <;> rw [he]
  · exact ⟨qs, h, (one_mul _).symm⟩
  · cases h with
    | cons hc' hrest =>
      refine ⟨_, hrest, ?_⟩
      rw [List.prod_cons, eq_minusOne (reads_number.mp hc') hc]
      rfl

/-- A product is the quotient of the factors above the fraction bar and of those below it. -/
theorem reads_quotient {fs : List Value} {qs : List ℚ} (h : List.Forall₂ (Reads ρ) fs qs)
    (hm : AllExact (fs.flatMap fun f => Made.inverted f ++ printedAt fuel (f.inverted?.getD f))) :
    ∃ as bs, List.Forall₂ (fun f q => shownAt fuel f ρ q) (fs.filter (·.inverted?.isNone)) as ∧
      List.Forall₂ (fun f q => shownAt fuel f ρ q) (fs.filterMap inverted?) bs ∧
      bs.prod ≠ 0 ∧ qs.prod = as.prod / bs.prod := by
  induction h with
  | nil => exact ⟨[], [], .nil, .nil, one_ne_zero, (div_one _).symm⟩
  | @cons f q fs qs hf _ ih =>
    rw [List.flatMap_cons] at hm
    obtain ⟨hfactor, hrest⟩ := hm.append
    obtain ⟨hinv, hprinted⟩ := hfactor.append
    obtain ⟨as, bs, has, hbs, hne, hprod⟩ := ih hrest
    cases hw : f.inverted? with
    | none =>
      rw [hw] at hprinted
      refine ⟨q :: as, bs, ?_, ?_, hne, ?_⟩
      · rw [List.filter_cons_of_pos (by rw [hw]; rfl)]
        exact .cons ⟨hprinted, hf⟩ has
      · rwa [List.filterMap_cons_none hw]
      · rw [List.prod_cons, List.prod_cons, hprod, mul_div_assoc]
    | some w =>
      rw [hw] at hprinted
      obtain ⟨hread, hq⟩ := hf.inverted hw hinv
      refine ⟨as, q⁻¹ :: bs, ?_, ?_, ?_, ?_⟩
      · rwa [List.filter_cons_of_neg (by rw [hw]; exact Bool.false_ne_true)]
      · rw [List.filterMap_cons_some hw]
        exact .cons ⟨hprinted, hread⟩ hbs
      · rw [List.prod_cons]
        exact mul_ne_zero (inv_ne_zero hq) hne
      · rw [List.prod_cons, List.prod_cons, hprod]
        field_simp

theorem chain_factors {ws : List Value} {qs : List ℚ} (h : List.Forall₂ (fun w q => shownAt fuel w ρ q) ws qs) (p : ℚ) :
    Chain (fun _ => .mul) (shownAt fuel) ρ p ws (p * qs.prod) := by
  induction h generalizing p with
  | nil =>
    rw [List.prod_nil, mul_one]
    exact .nil p
  | cons hw _ ih =>
    rw [List.prod_cons, ← mul_assoc]
    exact .cons hw rfl (ih _)

end Formula.Value
