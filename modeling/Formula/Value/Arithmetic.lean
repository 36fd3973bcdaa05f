import Formula.Value.Approximate

/-!
# Arithmetic on values

Each operation keeps values in a flat and folded form: a sum holds its terms in a row with at most one
number, at the end; a product holds its factors in a row with at most one number, in front. Numbers are
combined, neutral elements vanish, and everything else stays as it is.
-/

namespace Formula.Value

/-- A single item stands for itself; any other number of them is wrapped. -/
def collect (wrap : List Value → Value) : List Value → Value
  | [v] => v
  | vs => wrap vs

/-- The numbers in a row of values. -/
def numbers (vs : List Value) : List Number :=
  vs.filterMap asNumber?

/-- The values in a row that are not numbers. -/
def symbolic (vs : List Value) : List Value :=
  vs.filter (·.asNumber?.isNone)

/-- The sum of a row of terms: what is symbolic, and behind it the sum of the numbers if it is not zero. -/
def ofTerms (ts : List Value) : Value :=
  let constant := (numbers ts).foldl Number.add .zero
  let rest := symbolic ts
  collect .sum (if constant.isZero ∧ rest ≠ [] then rest else rest ++ [.number constant])

/-- The product of a row of factors: the product of the numbers if it is not one, and behind it what is
symbolic. Zero swallows everything but an infinity. -/
def ofFactors (fs : List Value) : Value :=
  let coefficient := (numbers fs).foldl Number.mul .one
  let rest := symbolic fs
  if coefficient.isZero ∧ ¬ rest.any isInfinite then .number coefficient
  else collect .product (if coefficient.isOne ∧ rest ≠ [] then rest else .number coefficient :: rest)

def add (a b : Value) : Value := ofTerms (a.terms ++ b.terms)

def mul (a b : Value) : Value := ofFactors (a.factors ++ b.factors)

def neg (a : Value) : Value := mul (.number .minusOne) a

def sub (a b : Value) : Value := add a b.neg

/-- The power. Exponents zero and one and the base one are folded, powers of numbers where they are
numbers, and zero to a negative exponent is the complex infinity. -/
def pow (base exponent : Value) : Value :=
  let folded : Option Value := do
    let e ← exponent.asNumber?
    if e.isZero then some one
    else if e.isOne then some base
    else
      let b ← base.asNumber?
      match b.pow? e with
      | some r => some (.number r)
      | none => if b.isZero && e.isNegative then some (.constant .complexInfinity) else none
  match folded with
  | some v => v
  | none => if base.asNumber?.any Number.isOne then one else .power base exponent

/-- The quotient: exact for numbers, and the complex infinity by zero. -/
def div (a b : Value) : Value :=
  match b.asNumber? with
  | none => mul a (pow b (int (-1)))
  | some d =>
    match Number.one.div? d, a.asNumber? with
    | none, _ => .constant .complexInfinity
    | some _, some n =>
      match n.div? d with
      | some q => .number q
      | none => .constant .complexInfinity
    | some inverse, none => mul a (.number inverse)

def mod (a b : Value) : Value :=
  let folded : Option Number := do (← a.asNumber?).rem? (← b.asNumber?)
  match folded with
  | some r => .number r
  | none => .remainder a b

/-- The factorial; that of a negative integer is the complex infinity. -/
def fact (a : Value) : Value :=
  match a with
  | .number n =>
    match n.factorial? with
    | some r => .number r
    | none => if n.isInteger && n.isNegative then .constant .complexInfinity else .factorial a
  | _ => .factorial a

def abs : Value → Value
  | .number n => .number n.abs
  | .absolute a => .absolute a
  | a => .absolute a

/-- Applies a builtin by its name. The absolute value has a form of its own, and a builtin whose arguments
are all doubles is evaluated. -/
def apply (name : String) (args : List Value) : Value :=
  let real? : Value → Option Float
    | .number (.real x) => some x
    | _ => none
  match name, args with
  | "abs", [a] => a.abs
  | _, [] => .application name []
  | _, _ =>
    match (args.mapM real?).bind (Builtin.evaluate? name) with
    | some r => .number (.real r)
    | none => .application name args

/-! ## Relations and intervals -/

/-- The order of two values, as far as it is known: of numbers, of what comes to doubles, and of equal
trees when only their equality matters. -/
def order? (op : Relation) (a b : Value) : Option Ordering :=
  match a.asNumber?, b.asNumber? with
  | some x, some y => x.compare? y
  | _, _ =>
    match a.toFloat?, b.toFloat? with
    | some x, some y => (Number.real x).compare? (.real y)
    | _, _ => if a == b && (op == .eq || op == .ne) then some .eq else none

/-- A relation between two values, decided if their order is known. -/
def relate (op : Relation) (a b : Value) : Value :=
  match order? op a b with
  | some o => .bool (op.holds o)
  | none => .relation op a b

/-- A value that comes to an infinite double. -/
def isInfiniteEnd (v : Value) : Bool :=
  v.toFloat?.any Float.isInf

/-- An interval. It is always open at an infinite end. -/
def between (lower upper : Value) (leftOpen rightOpen : Bool) : Value :=
  .interval lower upper (leftOpen || lower.isInfiniteEnd) (rightOpen || upper.isInfiniteEnd)

/-- The part of an interval that lies in a set. Intervals are real, so the reals and the complex numbers
leave nothing out. -/
def restrict : Value → Value → Value
  | .set .reals, .interval a b l r => .interval a b l r
  | .set .complexes, .interval a b l r => .interval a b l r
  | a, b => .intersection a b

end Formula.Value
