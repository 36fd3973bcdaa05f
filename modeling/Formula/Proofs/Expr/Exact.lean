import Formula.Expr.Evaluation
import Formula.Proofs.Limits
import Formula.Proofs.Value.Exact

/-!
# Evaluation preserves meaning

An arithmetic tree means a rational number where its variables stand for rational numbers (`Expr.rational?`), as
long as every part of it means one. Evaluation of the tree flattens, folds and cancels, and leaves a value that
is still read as the same number (`evaluate_exact`), if none of the numbers that it computes on its way is a
double (`Expr.made`).
-/

namespace Formula

/-! ## Operators -/

namespace Operator

/-- The operator on rational numbers. -/
def rational? : Operator → ℚ → ℚ → Option ℚ
  | add, a, b => some (a + b)
  | sub, a, b => some (a - b)
  | mul, a, b => some (a * b)
  | div, a, b => Exact.quotient? a b
  | mod, a, b => Exact.remainder? a b

/-- The numbers that the operator computes. -/
def made : Operator → Value → Value → List Number
  | add => Value.Made.add
  | sub => Value.Made.sub
  | mul => Value.Made.mul
  | div => Value.Made.div
  | mod => Value.Made.mod

theorem reads_apply {ρ : String → ℚ} {a b : Value} {p q r : ℚ} (op : Operator)
    (ha : a.Reads ρ p) (hb : b.Reads ρ q) (h : op.rational? p q = some r)
    (hm : Value.AllExact (op.made a b)) : (op.apply a b).Reads ρ r := by
  cases op with
  | add =>
    obtain rfl := Option.some.inj h
    exact ha.add hb hm
  | sub =>
    obtain rfl := Option.some.inj h
    exact ha.sub hb hm
  | mul =>
    obtain rfl := Option.some.inj h
    exact ha.mul hb hm
  | div => exact ha.div hb h hm
  | mod => exact ha.mod hb h hm

end Operator

namespace Expr

/-! ## Arithmetic trees -/

/-- Trees of fractions in lowest terms and variables under the arithmetic operations, without limits. -/
def Arithmetic : Expr → Prop
  | .number _ value => value.isExact = true ∧ value.Normal
  | .variable _ => True
  | .pos a => a.Arithmetic
  | .neg a => a.Arithmetic
  | .factorial a ceiling => a.Arithmetic ∧ ceiling = 1 / 0
  | .absolute a => a.Arithmetic
  | .binary _ a b => a.Arithmetic ∧ b.Arithmetic
  | .power a b ceiling => a.Arithmetic ∧ b.Arithmetic ∧ ceiling = 1 / 0
  | _ => False

/-- The rational number that an arithmetic tree means, where its variables stand for the given ones. -/
def rational? (ρ : String → ℚ) : Expr → Option ℚ
  | .number _ value => value.rational?
  | .variable name => some (ρ name)
  | .pos a => a.rational? ρ
  | .neg a => (a.rational? ρ).map fun q => -q
  | .factorial a _ => do Exact.factorial? (← a.rational? ρ)
  | .absolute a => (a.rational? ρ).map fun q => |q|
  | .binary op a b => do op.rational? (← a.rational? ρ) (← b.rational? ρ)
  | .power a b _ => do Exact.power? (← a.rational? ρ) (← b.rational? ρ)
  | _ => none

/-- The numbers that an operation computes from a value, if there is one. -/
def madeFrom (made : Value → List Number) : Except Error Value → List Number
  | .ok v => made v
  | .error _ => []

/-- The numbers that evaluation of an arithmetic tree computes. -/
def made : Expr → List Number
  | .pos a => a.made
  | .neg a => a.made ++ madeFrom Value.Made.neg a.evaluate
  | .factorial a _ => a.made ++ madeFrom Value.Made.fact a.evaluate
  | .absolute a => a.made ++ madeFrom Value.Made.abs a.evaluate
  | .binary op a b =>
    a.made ++ b.made ++ madeFrom (fun v => madeFrom (op.made v) b.evaluate) a.evaluate
  | .power a b _ =>
    a.made ++ b.made ++ madeFrom (fun v => madeFrom (Value.Made.pow v) b.evaluate) a.evaluate
  | _ => []

/-! ## Evaluation -/

section

variable {a b : Expr} {v w : Value}

theorem evaluate_neg (ha : a.evaluate = .ok v) : (neg a).evaluate = .ok v.neg := by
  show (do return (← a.evaluate).neg) = _
  rw [ha]
  rfl

theorem evaluate_absolute (ha : a.evaluate = .ok v) : (absolute a).evaluate = .ok v.abs := by
  show (do return (← a.evaluate).abs) = _
  rw [ha]
  rfl

theorem evaluate_factorial (ha : a.evaluate = .ok v) : (factorial a (1 / 0)).evaluate = .ok v.fact := by
  show (do
    let v ← a.evaluate
    Limits.checkFactorial (1 / 0) v
    return v.fact) = _
  rw [ha]
  show (do
    Limits.checkFactorial (1 / 0) v
    return v.fact) = _
  rw [Limits.checkFactorial_unlimited]
  rfl

theorem evaluate_binary (op : Operator) (ha : a.evaluate = .ok v) (hb : b.evaluate = .ok w) :
    (binary op a b).evaluate = .ok (op.apply v w) := by
  show (do return op.apply (← a.evaluate) (← b.evaluate)) = _
  rw [ha, hb]
  rfl

theorem evaluate_power (ha : a.evaluate = .ok v) (hb : b.evaluate = .ok w) :
    (power a b (1 / 0)).evaluate = .ok (v.pow w) := by
  show (do
    let base ← a.evaluate
    let exponent ← b.evaluate
    Limits.checkExponent (1 / 0) exponent
    return base.pow exponent) = _
  rw [ha, hb]
  show (do
    Limits.checkExponent (1 / 0) w
    return v.pow w) = _
  rw [Limits.checkExponent_unlimited]
  rfl

end

theorem number_reads {ρ : String → ℚ} {value : Number} {q : ℚ} (hn : value.Normal)
    (h : value.rational? = some q) : (Value.number value).Reads ρ q := by
  cases value with
  | real x => cases h
  | ratio n d =>
    have hi := Number.is_of_normal hn
    rw [hi.rational?] at h
    obtain rfl := Option.some.inj h
    exact Value.reads_number.mpr hi

/-- The value of an arithmetic tree reads as what the tree means. -/
theorem evaluate_reads {ρ : String → ℚ} {e : Expr} (he : e.Arithmetic) {q : ℚ}
    (hq : e.rational? ρ = some q) (hm : Value.AllExact e.made) :
    ∃ v, e.evaluate = .ok v ∧ v.Reads ρ q := by
  induction e using Arithmetic.induct generalizing q with
  | case1 literal value => exact ⟨_, rfl, number_reads he.2 hq⟩
  | case2 name =>
    obtain rfl := Option.some.inj hq
    exact ⟨_, rfl, rfl, trivial⟩
  | case3 a ih => exact ih he hq hm
  | case4 a ih =>
    obtain ⟨p, hp, rfl⟩ := Option.map_eq_some_iff.mp hq
    obtain ⟨hma, hmv⟩ := Value.AllExact.append hm
    obtain ⟨v, hv, hr⟩ := ih he hp hma
    rw [hv] at hmv
    exact ⟨v.neg, evaluate_neg hv, hr.neg hmv⟩
  | case5 a ceiling ih =>
    obtain ⟨ha, rfl⟩ := he
    obtain ⟨p, hp, hf⟩ := Option.bind_eq_some_iff.mp hq
    obtain ⟨hma, hmv⟩ := Value.AllExact.append hm
    obtain ⟨v, hv, hr⟩ := ih ha hp hma
    rw [hv] at hmv
    exact ⟨v.fact, evaluate_factorial hv, hr.fact hf hmv⟩
  | case6 a ih =>
    obtain ⟨p, hp, rfl⟩ := Option.map_eq_some_iff.mp hq
    obtain ⟨hma, hmv⟩ := Value.AllExact.append hm
    obtain ⟨v, hv, hr⟩ := ih he hp hma
    rw [hv] at hmv
    exact ⟨v.abs, evaluate_absolute hv, hr.abs hmv⟩
  | case7 op a b iha ihb =>
    obtain ⟨p, hp, hq⟩ := Option.bind_eq_some_iff.mp hq
    obtain ⟨r, hr, hop⟩ := Option.bind_eq_some_iff.mp hq
    obtain ⟨hms, hmv⟩ := Value.AllExact.append hm
    obtain ⟨hma, hmb⟩ := Value.AllExact.append hms
    obtain ⟨v, hv, hrv⟩ := iha he.1 hp hma
    obtain ⟨w, hw, hrw⟩ := ihb he.2 hr hmb
    rw [hv, hw] at hmv
    exact ⟨op.apply v w, evaluate_binary op hv hw, op.reads_apply hrv hrw hop hmv⟩
  | case8 a b ceiling iha ihb =>
    obtain ⟨ha, hb, rfl⟩ := he
    obtain ⟨p, hp, hq⟩ := Option.bind_eq_some_iff.mp hq
    obtain ⟨r, hr, hpow⟩ := Option.bind_eq_some_iff.mp hq
    obtain ⟨hms, hmv⟩ := Value.AllExact.append hm
    obtain ⟨hma, hmb⟩ := Value.AllExact.append hms
    obtain ⟨v, hv, hrv⟩ := iha ha hp hma
    obtain ⟨w, hw, hrw⟩ := ihb hb hr hmb
    rw [hv, hw] at hmv
    exact ⟨v.pow w, evaluate_power hv hw, hrv.pow hrw hpow hmv⟩
  | case9 e =>
    -- no other tree is arithmetic
    unfold Arithmetic at he
    split at he <;> simp_all

/-- Evaluation preserves meaning: where every part of an arithmetic tree means a rational number and no number
that evaluation computes is a double, the tree has a value, and the value is read as what the tree means. -/
theorem evaluate_exact (ρ : String → ℚ) {e : Expr} (he : e.Arithmetic) {q : ℚ}
    (hq : e.rational? ρ = some q) (hm : ∀ n ∈ e.made, n.isExact = true) :
    ∃ v, e.evaluate = .ok v ∧ v.rational? ρ = some q := by
  obtain ⟨v, hv, hr⟩ := evaluate_reads he hq hm
  exact ⟨v, hv, hr.1⟩

/-- The tree of `(2 - x) / (x ^ 2) + 3! % 4`. -/
def sample : Expr :=
  .binary .add
    (.binary .div (.binary .sub (.number "2" (.ofInt 2)) (.variable "x"))
      (.power (.variable "x") (.number "2" (.ofInt 2)) (1 / 0)))
    (.binary .mod (.factorial (.number "3" (.ofInt 3)) (1 / 0)) (.number "4" (.ofInt 4)))

/-- At `x = -2/3` it means 8. -/
theorem evaluate_sample_exact :
    ∃ v, sample.evaluate = .ok v ∧ v.rational? (fun _ => -2 / 3) = some 8 := by
  refine evaluate_exact (fun _ => -2 / 3) (e := sample) ?_ ?_ ?_
  · simp [sample, Arithmetic, Number.ofInt, Number.isExact, Number.Normal]
    decide
  · decide +kernel
  · decide +kernel

end Expr

end Formula
