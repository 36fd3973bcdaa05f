import Formula.Decimal.Shortest
import Formula.Decimal.Reading
import Formula.Number.Int128

/-!
# Numbers

A number is a fraction of two 128-bit integers, or a double. Literals are fractions: `2.5` is `5/2`.
Arithmetic stays exact as long as every intermediate integer fits; from there on it goes on in doubles.

`Number.Normal` says which fractions stand for themselves, and `Number.ratio?` is the one place where a
fraction is brought to that form.
-/

namespace Formula

/-- A fraction, or a double. -/
inductive Number where
  | ratio (num den : Int)
  | real (x : Float)
deriving Repr, Inhabited

namespace Number

/-- The number that is the integer `n`. -/
def ofInt (n : Int) : Number := .ratio n 1

def zero : Number := ofInt 0

def one : Number := ofInt 1

def minusOne : Number := ofInt (-1)

/-- A fraction in lowest terms with a positive denominator, both parts in the range. A double is always
normal. -/
def Normal : Number → Prop
  | .ratio n d => 0 < d ∧ Int.gcd n d = 1 ∧ Int128.InRange n ∧ Int128.InRange d
  | .real _ => True

/-- The fraction `n / d` in lowest terms with a positive denominator. There is none when `d` is zero or
when the greatest common divisor, or a part after its sign is changed, leaves the range. -/
def ratio? (n d : Int) : Option Number :=
  if d = 0 then none
  else do
    let g ← Int128.fit (Int.gcd n d)
    let n := n / g
    let d := d / g
    if d < 0 then return .ratio (← Int128.neg? n) (← Int128.neg? d) else return .ratio n d

/-- The double nearest to the number; for a fraction, the quotient of the doubles nearest to its parts. -/
def toFloat : Number → Float
  | .ratio n d => Float.ofInt n / Float.ofInt d
  | .real x => x

/-! ## Questions -/

/-- The integer that an exact number is. -/
def toInt? : Number → Option Int
  | .ratio n d => if d = 1 then some n else none
  | .real _ => none

def isInteger : Number → Bool
  | .ratio _ d => d == 1
  | .real x => Binary.isWhole x

def isZero : Number → Bool
  | .ratio n _ => n == 0
  | .real x => x == 0

def isOne : Number → Bool
  | .ratio n d => n == 1 && d == 1
  | .real x => x == 1

def isNegative : Number → Bool
  | .ratio n _ => n < 0
  | .real x => x < 0

/-- Two fractions are equal when their parts are, two doubles when they compare equal. -/
protected def beq : Number → Number → Bool
  | .ratio a b, .ratio c d => a == c && b == d
  | .real x, .real y => x == y
  | _, _ => false

instance : BEq Number := ⟨Number.beq⟩

/-- The order of two numbers: exact for fractions whose cross products fit, and none when one of two
doubles is not a number. -/
def compare? (a b : Number) : Option Ordering :=
  let exact : Option Ordering :=
    match a, b with
    | .ratio a b, .ratio c d => do return Ord.compare (← Int128.mul? a d) (← Int128.mul? c b)
    | _, _ => none
  exact <|>
    let x := a.toFloat
    let y := b.toFloat
    if x < y then some .lt else if x == y then some .eq else if y < x then some .gt else none

/-! ## Arithmetic

Every operation has an exact part on fractions, and a part on doubles for all else. -/

/-- The exact result, or else the double. -/
def orReal (exact : Option Number) (x : Float) : Number :=
  exact.getD (.real x)

def neg : Number → Number
  | .ratio n d => orReal ((Int128.neg? n).map (.ratio · d)) (-(Float.ofInt n) / Float.ofInt d)
  | .real x => .real (-x)

def abs (a : Number) : Number :=
  if a.isNegative then a.neg else a

/-- The sum of two fractions. -/
def addExact : Number → Number → Option Number
  | .ratio a b, .ratio c d => do
    ratio? (← Int128.add? (← Int128.mul? a d) (← Int128.mul? c b)) (← Int128.mul? b d)
  | _, _ => none

def add (a b : Number) : Number :=
  orReal (addExact a b) (a.toFloat + b.toFloat)

def sub (a b : Number) : Number :=
  a.add b.neg

/-- The product of two fractions. -/
def mulExact : Number → Number → Option Number
  | .ratio a b, .ratio c d => do ratio? (← Int128.mul? a c) (← Int128.mul? b d)
  | _, _ => none

def mul (a b : Number) : Number :=
  orReal (mulExact a b) (a.toFloat * b.toFloat)

/-- The quotient of two fractions. -/
def divExact : Number → Number → Option Number
  | .ratio a b, .ratio c d => do ratio? (← Int128.mul? a d) (← Int128.mul? b c)
  | _, _ => none

/-- The quotient; there is none by zero. -/
def div? (a b : Number) : Option Number :=
  if b.isZero then none
  else some (orReal (divExact a b) (a.toFloat / b.toFloat))

/-- The remainder of two fractions: `a/b` by `c/d` leaves what `a d` by `c b` leaves, over `b d`. -/
def remExact : Number → Number → Option Number
  | .ratio a b, .ratio c d => do
    let x ← Int128.mul? a d
    let y ← Int128.mul? c b
    let r ← Int128.rem? x y
    let r ← if r ≠ 0 ∧ (r < 0) ≠ (y < 0) then Int128.add? r y else some r
    ratio? r (← Int128.mul? b d)
  | _, _ => none

/-- The remainder of two doubles with the sign of the divisor. -/
def remReal (x y : Float) : Float :=
  let r := Binary.remainder x y
  if r != 0 && decide (r < 0) != decide (y < 0) then r + y else r

/-- The remainder with the sign of the divisor; there is none by zero. -/
def rem? (a b : Number) : Option Number :=
  if b.isZero then none
  else some (orReal (remExact a b) (remReal a.toFloat b.toFloat))

/-- An integer power of a fraction. Exponents of more than 32 bits are left to doubles. -/
def powExact : Number → Int → Option Number
  | .ratio n d, e => do
    if Nat.pow 2 32 ≤ e.natAbs then none
    let pn ← Int128.pow? n e.natAbs
    let pd ← Int128.pow? d e.natAbs
    if e < 0 then ratio? pd pn else ratio? pn pd
  | .real _, _ => none

/-- A power of doubles, where it is defined and real. -/
def powReal (b e : Float) : Option Number :=
  if b == 0 && e < 0 then none
  else
    let r := Float.pow b e
    if r.isNaN then none else some (.real r)

/-- The power `a ^ e`. There is none of zero to a negative exponent, nor where the result is not real. -/
def pow? (a e : Number) : Option Number :=
  match a, e.toInt? with
  | .ratio n _, some k =>
    if n = 0 ∧ k < 0 then none
    else powExact a k <|> powReal a.toFloat e.toFloat
  | _, _ => powReal a.toFloat e.toFloat

/-- The factors `2, 3, …, n` of a factorial. -/
def factors (n : Nat) : List Nat :=
  (List.range (n + 1)).drop 2

/-- The exact factorial, as long as it fits. -/
def factorialExact (n : Nat) : Option Int :=
  (factors n).foldlM (fun acc k => Int128.mul? acc (k : Nat)) 1

/-- The factorial multiplied up in doubles. -/
def factorialReal (n : Nat) : Float :=
  (factors n).foldl (fun acc k => acc * Float.ofNat k) 1

/-- The natural number up to 170 that `a` is. -/
def factorialArgument? : Number → Option Nat
  | .ratio n d => if d = 1 ∧ 0 ≤ n ∧ n ≤ 170 then some n.toNat else none
  | .real x => if 0 ≤ x && Binary.isWhole x && x ≤ 170 then some (Binary.truncate x) else none

/-- The factorial of a natural number up to 170, the last whose factorial a double can hold. It is exact
for an exact number as long as it fits. -/
def factorial? (a : Number) : Option Number :=
  (factorialArgument? a).map fun n =>
    match a, factorialExact n with
    | .ratio .., some v => ofInt v
    | _, _ => .real (factorialReal n)

/-! ## Text -/

/-- The number that a literal stands for: exact if all its digits and the power of ten for its places
fit, else the nearest double. A literal has a point at most, and a digit at least. -/
def ofLiteral? (literal : String) : Option Number :=
  let text := literal.toList
  let whole := text.takeWhile (· ≠ '.')
  let places := (text.dropWhile (· ≠ '.')).drop 1
  let digits := whole ++ places
  if digits = [] then none
  else
    let exact : Option Number := do
      ratio? (← (← Decimal.readInt? digits) |> Int128.fit) (← Int128.pow? 10 places.length)
    exact <|> (Decimal.readFloat? text).map .real

/-- A fraction is written with a slash, an integer without. -/
def render : Number → String
  | .ratio n d => if d = 1 then toString n else toString n ++ "/" ++ toString d
  | .real x => renderFloat x

end Number

end Formula
