import Formula.Decimal.Binary

/-!
# Decimal text of doubles

`shortest` finds the decimal with the fewest digits that reads back as the same double, and among those
the one nearest to it. `render` writes it in positional form: never an exponent, no point on a whole
number, and `-0`, `inf`, `-inf` and `NaN` for the values that have no digits.
-/

namespace Formula

/-- The number `digits · 10 ^ exponent`. -/
structure Decimal where
  digits : Nat
  exponent : Int
deriving DecidableEq, Repr

namespace Decimal

/-- The decimal digits of a natural number. -/
def digitsOf (n : Nat) : List Char :=
  Nat.toDigits 10 n

/-- Moves trailing zeros of the digits into the exponent. The first argument bounds their number. -/
def strip : Nat → Decimal → Decimal
  | 0, d => d
  | n + 1, d =>
    if d.digits ≠ 0 ∧ d.digits % 10 = 0 then strip n ⟨d.digits / 10, d.exponent + 1⟩ else d

/-- All digits before and behind the point, without an exponent. -/
def positional (d : Decimal) : List Char :=
  let ds := digitsOf d.digits
  if 0 ≤ d.exponent then ds ++ List.replicate d.exponent.toNat '0'
  else
    let places := (-d.exponent).toNat
    let padded := List.replicate (places + 1 - ds.length) '0' ++ ds
    padded.take (padded.length - places) ++ '.' :: padded.drop (padded.length - places)

/-! ## Fewest digits

The reals that round to `m · 2 ^ q` form an interval around it. Its ends lie half a unit away, or a
quarter below when `m` is the least significand of its binade, and they belong to it when `m` is even.
`Interval` holds the value and the two ends as fractions over one denominator. -/

/-- The reals between `low / den` and `high / den`, with the ends when `closed`, around `mid / den`. -/
structure Interval where
  low : Nat
  mid : Nat
  high : Nat
  den : Nat
  closed : Bool

/-- The reals that round to the positive finite double `x`. -/
def Interval.around (x : Float) : Interval :=
  let (m, q) := Binary.parts x
  let below := if Binary.fractionField x = 0 ∧ 1 < Binary.exponentField x then 1 else 2
  let unit := Nat.pow 2 (q - 2).toNat
  ⟨(4 * m - below) * unit, 4 * m * unit, (4 * m + 2) * unit, Nat.pow 2 (2 - q).toNat, m % 2 == 0⟩

/-- The one or two multiples of `10 ^ k` next to the middle, as far as they lie in the interval; the
nearer of two, and the upper one when both are equally near. -/
def Interval.onGrid (i : Interval) (k : Int) : Option Decimal :=
  let step := Nat.pow 10 k.toNat * i.den
  let scale := Nat.pow 10 (-k).toNat
  let c := i.mid * scale / step
  let down := c * step
  let up := (c + 1) * step
  let hasDown := if i.closed then i.low * scale ≤ down else i.low * scale < down
  let hasUp := if i.closed then up ≤ i.high * scale else up < i.high * scale
  if hasDown ∧ (¬ hasUp ∨ 2 * (i.mid * scale) < down + up) then some ⟨c, k⟩
  else if hasUp then some ⟨c + 1, k⟩
  else none

/-- The exponent of the first grid to try: the place of the leading digit of the middle. No double is
below `10 ^ -400`. -/
def Interval.leadingPlace (i : Interval) : Int :=
  ((digitsOf (i.mid * Nat.pow 10 400 / i.den)).length : Int) - 401

/-- The shortest decimal that reads back as the positive finite double `x`. Seventeen digits always
suffice. -/
def shortest (x : Float) : Decimal :=
  let i := Interval.around x
  let top := i.leadingPlace
  match (List.range 17).findSome? fun (n : Nat) => i.onGrid (top - n) with
  | some d => d.strip 20
  | none => ⟨0, 0⟩

end Decimal

/-- The text of a double, with as few digits as read back to it. -/
def renderFloat (x : Float) : String :=
  if x.isNaN then "NaN"
  else
    let sign := if Binary.isSigned x then ['-'] else []
    if x.isInf then String.ofList (sign ++ ['i', 'n', 'f'])
    else if x == 0 then String.ofList (sign ++ ['0'])
    else String.ofList (sign ++ (Decimal.shortest x).positional)

end Formula
