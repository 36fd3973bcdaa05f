import Formula.Decimal.Shortest

/-!
# Durations

A duration is a whole number of nanoseconds below `2 ^ 64` seconds. It is written in the largest of the
units second, millisecond, microsecond and nanosecond of which it has at least one, with the places behind
the point that are needed.
-/

namespace Formula.Text

structure Duration where
  nanoseconds : Nat
deriving DecidableEq, Repr

namespace Duration

/-- The units from large to small: the nanoseconds in one, the decimal places it can have, and its sign. -/
def units : List (Nat × Nat × String) :=
  [(1000000000, 9, "s"), (1000000, 6, "ms"), (1000, 3, "µs"), (1, 0, "ns")]

/-- The digits behind the point, without zeros at the end. -/
def fraction (places n : Nat) : List Char :=
  let digits := Decimal.digitsOf n
  let padded := List.replicate (places - digits.length) '0' ++ digits
  (padded.reverse.dropWhile (· = '0')).reverse

def render (d : Duration) : String :=
  match units.find? (·.1 ≤ d.nanoseconds) with
  | none => "0ns"
  | some (unit, places, sign) =>
    let tail := fraction places (d.nanoseconds % unit)
    toString (d.nanoseconds / unit) ++ (if tail = [] then "" else "." ++ String.ofList tail) ++ sign

/-- Why a number of seconds is no duration. -/
inductive Refusal where
  | negative
  | tooBig
deriving DecidableEq, Repr

def Refusal.message : Refusal → String
  | negative => "cannot convert float seconds to Duration: value is negative"
  | tooBig => "cannot convert float seconds to Duration: value is either too big or NaN"

/-- The integer nearest to `num / den`, and of two the even one. -/
def nearestInteger (num den : Nat) : Nat :=
  let q := num / den
  let r := num % den
  if 2 * r < den ∨ (2 * r = den ∧ q % 2 = 0) then q else q + 1

/-- The duration nearest to a number of seconds. -/
def ofSeconds (seconds : Float) : Except Refusal Duration :=
  if seconds < 0 then .error .negative
  else if seconds.isNaN || seconds.isInf then .error .tooBig
  else
    let (m, q) := Binary.parts seconds
    let num := m * Nat.pow 2 q.toNat
    let den := Nat.pow 2 (-q).toNat
    if Nat.pow 2 64 ≤ num / den then .error .tooBig
    else .ok ⟨nearestInteger (num * 1000000000) den⟩

end Duration

end Formula.Text
