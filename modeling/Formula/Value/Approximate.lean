import Formula.Value.Basic

/-!
# Values in doubles

The builtin functions on doubles, and the double that a value comes to when it is a real number. Nothing is
answered where the result is not a number.
-/

namespace Formula

/-- A double that is a number. -/
def realNumber? (x : Float) : Option Float :=
  if x.isNaN then none else some x

/-- A builtin with the least and the greatest number of its arguments. -/
structure Builtin where
  name : String
  least : Nat := 1
  most : Nat := 1
deriving DecidableEq, Repr

namespace Builtin

/-- All builtins. The logarithm is natural, or has its base as the first of two arguments. -/
def all : List Builtin :=
  [⟨"sin", 1, 1⟩, ⟨"cos", 1, 1⟩, ⟨"tan", 1, 1⟩, ⟨"cot", 1, 1⟩, ⟨"sec", 1, 1⟩, ⟨"csc", 1, 1⟩,
    ⟨"asin", 1, 1⟩, ⟨"acos", 1, 1⟩, ⟨"atan", 1, 1⟩, ⟨"sinh", 1, 1⟩, ⟨"cosh", 1, 1⟩, ⟨"tanh", 1, 1⟩,
    ⟨"ln", 1, 1⟩, ⟨"log", 1, 2⟩, ⟨"exp", 1, 1⟩, ⟨"sqrt", 1, 1⟩, ⟨"abs", 1, 1⟩, ⟨"floor", 1, 1⟩,
    ⟨"ceiling", 1, 1⟩]

/-- A builtin of one argument on doubles. -/
def unary? (name : String) (x : Float) : Option Float :=
  match name with
  | "sin" => some x.sin
  | "cos" => some x.cos
  | "tan" => some x.tan
  | "cot" => some (1 / x.tan)
  | "sec" => some (1 / x.cos)
  | "csc" => some (1 / x.sin)
  | "asin" => some x.asin
  | "acos" => some x.acos
  | "atan" => some x.atan
  | "sinh" => some x.sinh
  | "cosh" => some x.cosh
  | "tanh" => some x.tanh
  | "ln" => some x.log
  | "log" => some x.log
  | "exp" => some x.exp
  | "sqrt" => some x.sqrt
  | "abs" => some x.abs
  | "floor" => some x.floor
  | "ceiling" => some x.ceil
  | _ => none

/-- The number that a builtin gives for doubles. -/
def evaluate? (name : String) (args : List Float) : Option Float :=
  let result := match args with
    | [x] => unary? name x
    | [b, x] => if name = "log" then some (x.log / b.log) else none
    | _ => none
  result.bind realNumber?

end Builtin

namespace Value

mutual

/-- The double that a value comes to, if it is a real number. Terms are added from left to right, and so
are factors multiplied. -/
def toFloat? : Value → Option Float
  | .number n => realNumber? n.toFloat
  | .constant c => c.toFloat?
  | .sum ts => (listToFloats? ts).bind fun xs => realNumber? (xs.foldl (· + ·) (-0.0))
  | .product fs => (listToFloats? fs).bind fun xs => realNumber? (xs.foldl (· * ·) 1)
  | .power a b => do realNumber? (Float.pow (← a.toFloat?) (← b.toFloat?))
  | .remainder a b => do
    let r ← (Number.real (← a.toFloat?)).rem? (.real (← b.toFloat?))
    realNumber? r.toFloat
  | .factorial a => do
    let r ← (Number.real (← a.toFloat?)).factorial?
    realNumber? r.toFloat
  | .absolute a => do realNumber? (← a.toFloat?).abs
  | .application name args => (listToFloats? args).bind fun xs => Builtin.evaluate? name xs
  | _ => none

/-- The doubles that all values of a list come to. -/
def listToFloats? : List Value → Option (List Float)
  | [] => some []
  | v :: vs => do return (← v.toFloat?) :: (← listToFloats? vs)

end

end Value

end Formula
