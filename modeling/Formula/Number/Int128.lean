/-!
# Integers of 128 bits

Exact arithmetic is done on the integers from `-2 ^ 127` up to `2 ^ 127 - 1`. An operation answers `none`
when its result lies outside; it never wraps. `fit_eq_some_iff` is the one fact about the range that the
operations rest on.
-/

namespace Formula.Int128

/-- The least integer of the range, `-2 ^ 127`. -/
def least : Int := -170141183460469231731687303715884105728

/-- The greatest integer of the range, `2 ^ 127 - 1`. -/
def greatest : Int := 170141183460469231731687303715884105727

/-- `n` lies in the range. -/
def InRange (n : Int) : Prop :=
  least ≤ n ∧ n ≤ greatest

instance (n : Int) : Decidable (InRange n) :=
  inferInstanceAs (Decidable (_ ∧ _))

/-- `n`, if it lies in the range. -/
def fit (n : Int) : Option Int :=
  if InRange n then some n else none

theorem fit_eq_some_iff {n m : Int} : fit n = some m ↔ InRange n ∧ n = m := by
  unfold fit; split <;> simp_all

theorem fit_eq_none_iff {n : Int} : fit n = none ↔ ¬ InRange n := by
  unfold fit; split <;> simp_all

/-- The negative of `a`; the least integer has none. -/
def neg? (a : Int) : Option Int := fit (-a)

def add? (a b : Int) : Option Int := fit (a + b)

def sub? (a b : Int) : Option Int := fit (a - b)

def mul? (a b : Int) : Option Int := fit (a * b)

/-- The remainder with the sign of the dividend. There is none by zero, nor of the least integer by
minus one, where the quotient leaves the range. -/
def rem? (a b : Int) : Option Int :=
  if b = 0 then none
  else (fit (a.tdiv b)).map fun _ => a.tmod b

/-- The power `a ^ k`. A base other than 0, 1 and -1 leaves the range at the latest with the 128th power,
so that large exponents are refused without computing anything. -/
def pow? (a : Int) (k : Nat) : Option Int :=
  if a.natAbs ≤ 1 then some (if k = 0 then 1 else if k % 2 = 0 then a * a else a)
  else if k < 128 then fit (Int.pow a k)
  else none

end Formula.Int128
