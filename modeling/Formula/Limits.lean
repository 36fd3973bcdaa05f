import Formula.Error

/-!
# Limits

Ceilings on literals, exponents and the operands of factorials. A value equal to its ceiling passes; only
what is larger is refused. What has no value as a double passes.
-/

namespace Formula

structure Limits where
  number : Float := 1 / 0
  exponent : Float := 1 / 0
  factorial : Float := 1 / 0

namespace Limits

def checkNumber (limits : Limits) (literal : String) (value : Float) : Except Error Unit :=
  if limits.number < value then .error (.numberTooLarge literal limits.number) else .ok ()

/-- Refuses an exponent whose size is known and above the ceiling. -/
def checkExponent (ceiling : Float) (exponent : Value) : Except Error Unit :=
  match exponent.toFloat? with
  | some x => if ceiling < x.abs then .error (.exponentTooLarge x ceiling) else .ok ()
  | none => .ok ()

/-- Refuses the operand of a factorial whose size is known and above the ceiling. -/
def checkFactorial (ceiling : Float) (operand : Value) : Except Error Unit :=
  match operand.toFloat? with
  | some x => if ceiling < x.abs then .error (.factorialTooLarge x ceiling) else .ok ()
  | none => .ok ()

end Limits

end Formula
