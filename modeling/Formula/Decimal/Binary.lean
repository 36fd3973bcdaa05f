/-!
# Double-precision numbers in parts

A finite double is `± m · 2 ^ q` for a natural number `m` below `2 ^ 53`. Everything here is read off the
bits, so that it can be computed with exact integers: whether a double is a whole number, and the exact
remainder of two doubles.
-/

namespace Formula.Binary

/-- The biased exponent of a double. -/
def exponentField (x : Float) : Nat :=
  x.toBits.toNat / Nat.pow 2 52 % Nat.pow 2 11

/-- The stored part of the significand. -/
def fractionField (x : Float) : Nat :=
  x.toBits.toNat % Nat.pow 2 52

/-- Whether the sign bit is set. It is also set for `-0`. -/
def isSigned (x : Float) : Bool :=
  x.toBits.toNat / Nat.pow 2 63 == 1

/-- The parts `(m, q)` of a finite double of size `m · 2 ^ q`. -/
def parts (x : Float) : Nat × Int :=
  if exponentField x = 0 then (fractionField x, -1074)
  else (Nat.pow 2 52 + fractionField x, (exponentField x : Int) - 1075)

/-- A finite double without a fractional part. -/
def isWhole (x : Float) : Bool :=
  let (m, q) := parts x
  x.isFinite && (0 ≤ q || m % Nat.pow 2 (-q).toNat == 0)

/-- The size of a finite double, cut to a natural number. -/
def truncate (x : Float) : Nat :=
  let (m, q) := parts x
  m * Nat.pow 2 q.toNat / Nat.pow 2 (-q).toNat

/-- The remainder of `x` by `y` with the sign of `x`. It is exact: both are multiples of the same power
of two, and the remainder has at most as many bits as one of them. -/
def remainder (x y : Float) : Float :=
  if x.isNaN || y.isNaN || x.isInf || y == 0 then 0 / 0
  else if y.isInf then x
  else
    let (mx, qx) := parts x
    let (my, qy) := parts y
    let q := min qx qy
    let rest := mx * Nat.pow 2 (qx - q).toNat % (my * Nat.pow 2 (qy - q).toNat)
    let r := (Float.ofNat rest).scaleB q
    if isSigned x then -r else r

end Formula.Binary
