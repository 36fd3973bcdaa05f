import Formula.Expr.Evaluation

/-!
# No limits

A ceiling that is not set is the infinity of doubles. No double is larger, so that such a ceiling refuses
nothing, and every literal, power and factorial passes its check.
-/

namespace Formula.Limits

open Float.Model

/-- No double is larger than infinity. -/
theorem not_infinity_lt (x : Float) : ¬ (1 / 0 : Float) < x := by
  have hinf : (1 / 0 : Float).toModel.unpack = .infinity .positive := by rfl
  intro h
  have h : (1 / 0 : Float).toModel < x.toModel := of_decide_eq_true h
  have h : (1 / 0 : Float).toModel.unpack.compare x.toModel.unpack = some .lt := beq_iff_eq.mp h
  rw [hinf] at h
  cases hx : x.toModel.unpack with
  | notANumber =>
    rw [hx] at h
    cases h
  | infinity sign =>
    rw [hx] at h
    cases sign <;> cases h
  | zero sign =>
    rw [hx] at h
    cases h
  | finite sign m e hm =>
    rw [hx] at h
    cases h

theorem checkNumber_unlimited (literal : String) (x : Float) :
    Limits.checkNumber {} literal x = .ok () := if_neg (not_infinity_lt x)

theorem checkExponent_unlimited (v : Value) : checkExponent (1 / 0) v = .ok () := by
  unfold checkExponent
  split
  · exact if_neg (not_infinity_lt _)
  · rfl

theorem checkFactorial_unlimited (v : Value) : checkFactorial (1 / 0) v = .ok () := by
  unfold checkFactorial
  split
  · exact if_neg (not_infinity_lt _)
  · rfl

end Formula.Limits

namespace Formula.Expr

theorem checkedNumber_unlimited (literal : String) (value : Number) :
    checkedNumber {} literal value = .ok (.number literal value) := by
  rw [checkedNumber, Limits.checkNumber_unlimited]
  rfl

theorem checkedPower_unlimited (base exponent : Expr) :
    checkedPower base exponent (1 / 0) = .ok (.power base exponent (1 / 0)) := by
  unfold checkedPower
  split
  · rw [Limits.checkExponent_unlimited]
    rfl
  · rfl

theorem checkedFactorial_unlimited (operand : Expr) :
    checkedFactorial operand (1 / 0) = .ok (.factorial operand (1 / 0)) := by
  unfold checkedFactorial
  split
  · rw [Limits.checkFactorial_unlimited]
    rfl
  · rfl

end Formula.Expr
