import Formula.Proofs.Number.Word

/-!
# Arithmetic is exact or openly inexact

Whatever an operation on fractions of machine integers gives as a fraction is the exact result in lowest terms
(`exact_or_inexact`); else it is a double, or there is no result where mathematics has none. The machine never
stops with a fault on the way, nor does it wrap: it agrees with the operations on integers of the range.
-/

namespace Formula

/-- If the number is a fraction, it is in lowest terms and its value is `x`. -/
def Number.ExactAs (r : Number) (x : ℚ) : Prop :=
  ∀ p q, r = .ratio p q → 0 < q ∧ Int.gcd p q = 1 ∧ (p : ℚ) / q = x

namespace Word.Fraction

/-- In lowest terms with a positive denominator. -/
def Lowest (a : Fraction) : Prop := 0 < a.den.toInt ∧ Int.gcd a.num.toInt a.den.toInt = 1

instance (a : Fraction) : Decidable a.Lowest :=
  inferInstanceAs (Decidable (_ ∧ _))

/-- The rational number that the fraction is. -/
def value (a : Fraction) : ℚ := a.num.toInt / a.den.toInt

theorem Lowest.is {a : Fraction} (h : a.Lowest) : a.toNumber.Is a.value :=
  Number.is_of_coprime h.1 h.2

end Word.Fraction

namespace Number

theorem exactAs_of_is {r : Number} {x : ℚ} (h : r.isExact = true → r.Is x) : r.ExactAs x := by
  rintro p q rfl
  have hx := h rfl
  rw [Is, Number.ratio.injEq] at hx
  obtain ⟨rfl, rfl⟩ := hx
  refine ⟨by exact_mod_cast x.den_pos, x.reduced, ?_⟩
  rw [Int.cast_natCast, Rat.num_div_den]

theorem Is.neg {a : Number} {x : ℚ} (ha : a.Is x) (h : a.neg.isExact = true) : a.neg.Is (-x) := by
  rw [ha] at h ⊢
  obtain ⟨r, hr, he⟩ := orReal_of_isExact h
  rw [Number.neg, he]
  obtain ⟨n, hn, rfl⟩ := Option.map_eq_some_iff.mp hr
  obtain ⟨-, rfl⟩ := Int128.fit_eq_some_iff.mp hn
  rw [Is, Rat.num_neg_eq_neg_num, Rat.den_neg_eq_den]

theorem Is.sub {a b : Number} {x y : ℚ} (ha : a.Is x) (hb : b.Is y) (h : (a.sub b).isExact = true) :
    (a.sub b).Is (x - y) := by
  rw [sub_eq_add_neg]
  refine ha.add (hb.neg ?_) h
  -- a sum with a double is a double
  cases hn : b.neg with
  | ratio => rfl
  | real z =>
    rw [Number.sub, hn] at h
    cases a <;> cases h

/-- There is a factorial of natural numbers only. -/
theorem Is.exists_factorial {a r : Number} {x : ℚ} (ha : a.Is x) (h : a.factorial? = some r) :
    ∃ n : Nat, x = n ∧ r.ExactAs n.factorial := by
  obtain ⟨n, hn, -⟩ := Option.map_eq_some_iff.mp h
  rw [ha, factorialArgument?] at hn
  obtain ⟨⟨hden, hnum, -⟩, -⟩ := Option.ite_none_right_eq_some.mp hn
  have hx : x = (x.num.toNat : Nat) := by
    conv_lhs => rw [eq_div x, hden, Int.cast_one, div_one, ← Int.toNat_of_nonneg hnum]
    rw [Int.cast_natCast]
  exact ⟨x.num.toNat, hx, exactAs_of_is fun hr => (ha.factorial h hr).2⟩

/-- Zero has no power to a negative integer. -/
theorem Is.pow_zero {a : Number} (ha : a.Is 0) {e : Int} (he : e < 0) : a.pow? (.ofInt e) = none := by
  rw [ha]
  exact if_pos ⟨rfl, he⟩

/-- The remainder by a divisor other than zero is zero or has its sign, and is smaller. -/
theorem remainder_sign {x y r : ℚ} (hy : y ≠ 0) (hr : r = x - y * ⌊x / y⌋) :
    (r = 0 ∨ (r < 0 ↔ y < 0)) ∧ |r| < |y| := by
  have hfract : r = y * Int.fract (x / y) := by
    rw [hr, Int.fract, mul_sub, mul_div_cancel₀ x hy]
  have hnonneg := Int.fract_nonneg (x / y)
  have hlt := Int.fract_lt_one (x / y)
  refine ⟨?_, ?_⟩
  · rcases hnonneg.eq_or_lt with h0 | hpos
    · exact .inl (by rw [hfract, ← h0, mul_zero])
    · rw [hfract]
      exact .inr ⟨fun h => neg_of_mul_neg_left h hpos.le, fun h => mul_neg_of_neg_of_pos h hpos⟩
  · rw [hfract, abs_mul, abs_of_nonneg hnonneg]
    exact mul_lt_of_lt_one_right (abs_pos.mpr hy) hlt

end Number

open Number (ExactAs exactAs_of_is)

namespace Word.Fraction

/-- Arithmetic on fractions in lowest terms is exact where it gives a fraction. There is no quotient nor
remainder by zero, and no power of zero to a negative integer. No intermediate result wraps. -/
theorem exact_or_inexact (a b : Fraction) (ha : a.Lowest) (hb : b.Lowest) :
    let A := a.toNumber
    let B := b.toNumber
    let x := a.value
    let y := b.value
    let r := x - y * ⌊x / y⌋
    -- a fraction is the exact result
    ((A.add B).ExactAs (x + y) ∧ (A.sub B).ExactAs (x - y) ∧ (A.mul B).ExactAs (x * y) ∧
      A.neg.ExactAs (-x) ∧ A.abs.ExactAs |x| ∧
      (∀ v, A.div? B = some v → v.ExactAs (x / y)) ∧ (∀ v, A.rem? B = some v → v.ExactAs r) ∧
      (∀ (e : Int) (v : Number), A.pow? (.ofInt e) = some v → v.ExactAs (x ^ e)) ∧
      (∀ v, A.factorial? = some v → ∃ n : Nat, x = n ∧ v.ExactAs n.factorial)) ∧
    -- the exact remainder has the sign of the divisor, and is smaller
    (y ≠ 0 → (r = 0 ∨ (r < 0 ↔ y < 0)) ∧ |r| < |y|) ∧
    -- where there is no result
    ((A.div? B = none ↔ y = 0) ∧ (A.rem? B = none ↔ y = 0) ∧
      (∀ e : Int, x = 0 → e < 0 → A.pow? (.ofInt e) = none)) ∧
    -- the machine has the same result, or a check refuses the operation where the integers have none
    (Agrees toNumber a.neg ((Int128.neg? a.num.toInt).map (Number.ratio · a.den.toInt)) ∧
      Agrees toNumber (a.add b) (A.addExact B) ∧ Agrees toNumber (a.mul b) (A.mulExact B) ∧
      Agrees toNumber (a.div b) (A.divExact B) ∧ Agrees toNumber (a.rem b) (A.remExact B) ∧
      (∀ e : Word, Agrees toNumber (a.pow e) (A.powExact e.toInt)) ∧
      ∀ n ≤ 170, Agrees BitVec.toInt (factorial n) (Number.factorialExact n)) := by
  have hA := ha.is
  have hB := hb.is
  have hzero : b.toNumber.isZero = true ↔ b.value = 0 := hB.isZero_iff
  refine ⟨⟨?_, ?_, ?_, ?_, ?_, ?_, ?_, ?_, ?_⟩, fun hy => Number.remainder_sign hy rfl, ⟨?_, ?_, ?_⟩,
    ⟨a.agrees_neg, a.agrees_add b, a.agrees_mul b, a.agrees_div b, a.agrees_rem b, a.agrees_pow,
      fun n hn => agrees_factorial hn⟩⟩
  · exact exactAs_of_is (hA.add hB)
  · exact exactAs_of_is (hA.sub hB)
  · exact exactAs_of_is (hA.mul hB)
  · exact exactAs_of_is hA.neg
  · exact exactAs_of_is hA.abs
  · exact fun v hv => exactAs_of_is (hA.div hB hv)
  · exact fun v hv => exactAs_of_is (hA.rem hB hv)
  · intro e v hv
    have hpow := hA.pow (Number.is_ofInt e) (Rat.den_intCast e) hv
    rw [Rat.num_intCast] at hpow
    exact exactAs_of_is hpow
  · exact fun v hv => hA.exists_factorial hv
  · rw [← hzero, Number.div?]
    split <;> simp_all
  · rw [← hzero, Number.rem?]
    split <;> simp_all
  · exact fun e hx he => Number.Is.pow_zero (hx ▸ hA) he

/-- Nothing wraps at the least integer, not even in the quotient and the remainder by minus one. -/
theorem exact_or_inexact_least :
    let a : Fraction := ⟨BitVec.intMin 128, 1⟩
    let b : Fraction := ⟨-1, 1⟩
    a.Lowest ∧ b.Lowest ∧ a.toNumber.rem? b.toNumber ≠ none ∧ a.neg ≠ .error .fault ∧
      a.div b ≠ .error .fault ∧ a.rem b ≠ .error .fault := by
  have ha : (⟨BitVec.intMin 128, 1⟩ : Fraction).Lowest := by decide
  have hb : (⟨-1, 1⟩ : Fraction).Lowest := by decide
  obtain ⟨-, -, ⟨-, hrem, -⟩, hneg, -, -, hdiv, hmod, -⟩ := exact_or_inexact _ _ ha hb
  refine ⟨ha, hb, fun h => ?_, hneg.ne_fault, hdiv.ne_fault, hmod.ne_fault⟩
  have := hrem.mp h
  norm_num [value] at this
  exact absurd this (by decide)

end Word.Fraction

end Formula
