import Mathlib.Data.Nat.Factorial.Basic
import Mathlib.Data.Rat.Floor
import Mathlib.Data.Rat.Lemmas
import Mathlib.Tactic.FieldSimp
import Mathlib.Tactic.Linarith
import Mathlib.Tactic.Push
import Mathlib.Tactic.Ring
import Formula.Number.Basic

/-!
# Exact numbers

`Exact` has the operations of arithmetic on rational numbers, each without a result where mathematics has
none. `Number.Is` says that a number is a fraction in lowest terms with a given rational value; a rational
value has one such fraction, so that questions about the fraction are questions about the value. Every operation
on numbers that does not go over to doubles takes values to the value of the exact operation (`Is.add`,
`Is.mul`, `Is.div`, `Is.rem`, `Is.pow`, `Is.factorial`, `Is.abs`).
-/

namespace Formula

/-! ## Arithmetic on rational numbers -/

namespace Exact

/-- The quotient; there is none by zero. -/
def quotient? (a b : ℚ) : Option ℚ := if b = 0 then none else some (a / b)

/-- The remainder with the sign of the divisor; there is none by zero. -/
def remainder? (a b : ℚ) : Option ℚ := if b = 0 then none else some (a - b * ⌊a / b⌋)

/-- The power to an integer; there is none of zero to a negative one. -/
def power? (a e : ℚ) : Option ℚ :=
  if e.den = 1 ∧ ¬ (a = 0 ∧ e < 0) then some (a ^ e.num) else none

/-- The factorial of a natural number. -/
def factorial? (a : ℚ) : Option ℚ :=
  if a.den = 1 ∧ 0 ≤ a then some (a.num.toNat.factorial : ℚ) else none

end Exact

namespace Number

/-- The rational number that a number is, unless it is a double. -/
def rational? : Number → Option ℚ
  | .ratio n d => some (n / d)
  | .real _ => none

/-- Whether a number is a fraction. -/
def isExact : Number → Bool
  | .ratio .. => true
  | .real _ => false

/-- The number is the fraction in lowest terms with the given value. -/
def Is (a : Number) (q : ℚ) : Prop := a = .ratio q.num q.den

theorem Is.rational? {a : Number} {q : ℚ} (h : a.Is q) : a.rational? = some q := by
  rw [h, Number.rational?, Int.cast_natCast, Rat.num_div_den]

theorem is_of_coprime {n d : Int} (hd : 0 < d) (h : Int.gcd n d = 1) :
    (Number.ratio n d).Is (n / d) := by
  rw [Is, Rat.num_div_eq_of_coprime hd h, Rat.den_div_eq_of_coprime hd h]

/-- A normal fraction is in lowest terms. -/
theorem is_of_normal {n d : Int} (h : (Number.ratio n d).Normal) : (Number.ratio n d).Is (n / d) :=
  is_of_coprime h.1 h.2.1

theorem is_ofInt (n : Int) : (ofInt n).Is n := by
  rw [Is, Rat.num_intCast, Rat.den_intCast]
  rfl

/-- The parts of a fraction in lowest terms. -/
theorem lowest_terms {n d : Int} (hd : d ≠ 0) :
    d / (Int.gcd n d : Int) ≠ 0 ∧ Int.gcd (n / Int.gcd n d) (d / Int.gcd n d) = 1 ∧
      (n : ℚ) / d = (n / (Int.gcd n d : Int) : Int) / (d / (Int.gcd n d : Int) : Int) := by
  have hpos : 0 < Int.gcd n d := Int.gcd_pos_of_ne_zero_right n hd
  have hco : Int.gcd (n / Int.gcd n d) (d / Int.gcd n d) = 1 := Int.gcd_ediv_gcd_ediv_gcd hpos
  have hn : (Int.gcd n d : Int) * (n / Int.gcd n d) = n := Int.mul_ediv_cancel' (Int.gcd_dvd_left ..)
  have hd' : (Int.gcd n d : Int) * (d / Int.gcd n d) = d := Int.mul_ediv_cancel' (Int.gcd_dvd_right ..)
  have hg : (Int.gcd n d : Int) ≠ 0 := by exact_mod_cast hpos.ne'
  generalize (Int.gcd n d : Int) = g at *
  generalize n / g = n' at *
  generalize d / g = d' at *
  subst hn hd'
  refine ⟨fun h0 => hd (by rw [h0, mul_zero]), hco, ?_⟩
  push_cast
  exact mul_div_mul_left _ _ (by exact_mod_cast hg)

/-- The fraction that is brought to lowest terms has the value of the given one. -/
theorem is_of_ratio? {n d : Int} {r : Number} (h : ratio? n d = some r) : r.Is (n / d) := by
  unfold ratio? at h
  split at h
  · cases h
  rename_i hd
  obtain ⟨hne, hco, hval⟩ := lowest_terms (n := n) hd
  obtain ⟨g, hg, h⟩ := Option.bind_eq_some_iff.mp h
  obtain ⟨-, rfl⟩ := Int128.fit_eq_some_iff.mp hg
  rw [hval]
  dsimp only at h
  split at h
  · obtain ⟨n', hn', h⟩ := Option.bind_eq_some_iff.mp h
    obtain ⟨d', hd', h⟩ := Option.bind_eq_some_iff.mp h
    obtain ⟨-, rfl⟩ := Int128.fit_eq_some_iff.mp hn'
    obtain ⟨-, rfl⟩ := Int128.fit_eq_some_iff.mp hd'
    cases h
    rw [← neg_div_neg_eq, ← Int.cast_neg, ← Int.cast_neg]
    exact is_of_coprime (by omega) (by rw [Int.neg_gcd, Int.gcd_neg]; exact hco)
  · cases h
    exact is_of_coprime (by omega) hco

/-- A result that is no double is the exact one. -/
theorem orReal_of_isExact {o : Option Number} {x : Float} (h : (orReal o x).isExact = true) :
    ∃ r, o = some r ∧ orReal o x = r := by
  cases o with
  | none => cases h
  | some r => exact ⟨r, rfl, rfl⟩

/-! ## Questions -/

theorem Is.isZero_iff {a : Number} {q : ℚ} (h : a.Is q) : a.isZero = true ↔ q = 0 := by
  rw [h, isZero, beq_iff_eq, Rat.num_eq_zero]

theorem Is.isOne_iff {a : Number} {q : ℚ} (h : a.Is q) : a.isOne = true ↔ q = 1 := by
  rw [h, isOne, Bool.and_eq_true, beq_iff_eq, beq_iff_eq]
  constructor
  · rintro ⟨hn, hd⟩
    rw [← Rat.num_div_den q, hn]
    have hd : q.den = 1 := by exact_mod_cast hd
    rw [hd]
    norm_num
  · rintro rfl
    exact ⟨rfl, rfl⟩

theorem Is.isNegative_iff {a : Number} {q : ℚ} (h : a.Is q) : a.isNegative = true ↔ q < 0 := by
  rw [h, isNegative, decide_eq_true_eq, Rat.num_neg]

theorem Is.toInt? {a : Number} {q : ℚ} (h : a.Is q) :
    a.toInt? = if q.den = 1 then some q.num else none := by
  rw [h, Number.toInt?]
  simp only [Nat.cast_eq_one]

/-! ## Arithmetic -/

/-- The value as a fraction of integers, for calculations. -/
theorem eq_div (q : ℚ) : q = (q.num : ℚ) / (q.den : Int) := by
  rw [Int.cast_natCast, Rat.num_div_den]

theorem den_cast_ne (q : ℚ) : ((q.den : Int) : ℚ) ≠ 0 := by
  rw [Int.cast_natCast]
  exact_mod_cast q.den_ne_zero

theorem Is.add {a b : Number} {p q : ℚ} (ha : a.Is p) (hb : b.Is q) (h : (a.add b).isExact = true) :
    (a.add b).Is (p + q) := by
  rw [ha, hb] at h ⊢
  obtain ⟨r, hr, he⟩ := orReal_of_isExact h
  rw [Number.add, he]
  simp only [addExact, Int128.mul?, Int128.add?, Option.bind_eq_bind, Option.bind_eq_some_iff,
    Int128.fit_eq_some_iff] at hr
  obtain ⟨_, ⟨-, rfl⟩, _, ⟨-, rfl⟩, _, ⟨-, rfl⟩, _, ⟨-, rfl⟩, hr⟩ := hr
  convert is_of_ratio? hr using 1
  conv_lhs => rw [eq_div p, eq_div q]
  have := den_cast_ne p
  have := den_cast_ne q
  push_cast
  field_simp

theorem Is.mul {a b : Number} {p q : ℚ} (ha : a.Is p) (hb : b.Is q) (h : (a.mul b).isExact = true) :
    (a.mul b).Is (p * q) := by
  rw [ha, hb] at h ⊢
  obtain ⟨r, hr, he⟩ := orReal_of_isExact h
  rw [Number.mul, he]
  simp only [mulExact, Int128.mul?, Option.bind_eq_bind, Option.bind_eq_some_iff,
    Int128.fit_eq_some_iff] at hr
  obtain ⟨_, ⟨-, rfl⟩, _, ⟨-, rfl⟩, hr⟩ := hr
  convert is_of_ratio? hr using 1
  conv_lhs => rw [eq_div p, eq_div q]
  push_cast
  rw [div_mul_div_comm]

theorem Is.div {a b r : Number} {p q : ℚ} (ha : a.Is p) (hb : b.Is q) (h : a.div? b = some r)
    (hr : r.isExact = true) : r.Is (p / q) := by
  unfold div? at h
  split at h
  · cases h
  obtain rfl := Option.some.inj h
  rw [ha, hb] at hr ⊢
  obtain ⟨r, hr, he⟩ := orReal_of_isExact hr
  rw [he]
  simp only [divExact, Int128.mul?, Option.bind_eq_bind, Option.bind_eq_some_iff,
    Int128.fit_eq_some_iff] at hr
  obtain ⟨_, ⟨-, rfl⟩, _, ⟨-, rfl⟩, hr⟩ := hr
  convert is_of_ratio? hr using 1
  conv_lhs => rw [eq_div p, eq_div q]
  push_cast
  rw [div_div_div_eq]

/-- There is a quotient by all but zero. -/
theorem Is.exists_div {a b : Number} {q : ℚ} (hb : b.Is q) (hq : q ≠ 0) : ∃ r, a.div? b = some r := by
  rw [div?, if_neg (fun h => hq (hb.isZero_iff.mp h))]
  exact ⟨_, rfl⟩

theorem Is.abs {a : Number} {p : ℚ} (ha : a.Is p) (h : a.abs.isExact = true) : a.abs.Is |p| := by
  unfold Number.abs at h ⊢
  split at h
  · rename_i hn
    rw [if_pos hn]
    rw [abs_of_neg (ha.isNegative_iff.mp hn)]
    rw [ha] at h ⊢
    obtain ⟨r, hr, he⟩ := orReal_of_isExact h
    rw [Number.neg, he]
    obtain ⟨n, hn, rfl⟩ := Option.map_eq_some_iff.mp hr
    obtain ⟨-, rfl⟩ := Int128.fit_eq_some_iff.mp hn
    rw [Is, Rat.num_neg_eq_neg_num, Rat.den_neg_eq_den]
  · rename_i hn
    rw [if_neg hn, abs_of_nonneg (not_lt.mp fun h => hn (ha.isNegative_iff.mpr h))]
    exact ha

/-! ## Remainders -/

/-- Division rounded down leaves what has the sign of the divisor and is smaller. -/
theorem floor_div_eq {x y k r : Int} (h : x = y * k + r)
    (hr : 0 < y ∧ 0 ≤ r ∧ r < y ∨ y < 0 ∧ y < r ∧ r ≤ 0) : ⌊(x : ℚ) / y⌋ = k := by
  rw [Int.floor_eq_iff]
  have hx : (x : ℚ) = y * k + r := by exact_mod_cast h
  rcases hr with ⟨hy, h0, hlt⟩ | ⟨hy, hlt, h0⟩
  · have hy : (0 : ℚ) < y := by exact_mod_cast hy
    have h0 : (0 : ℚ) ≤ r := by exact_mod_cast h0
    have hlt : (r : ℚ) < y := by exact_mod_cast hlt
    constructor
    · rw [le_div_iff₀ hy]
      linarith
    · rw [div_lt_iff₀ hy]
      linarith
  · have hy : (y : ℚ) < 0 := by exact_mod_cast hy
    have h0 : (r : ℚ) ≤ 0 := by exact_mod_cast h0
    have hlt : (y : ℚ) < r := by exact_mod_cast hlt
    constructor
    · rw [le_div_iff_of_neg hy]
      linarith
    · rw [div_lt_iff_of_neg hy]
      linarith

/-- The remainder of integers, moved to the sign of the divisor. -/
def floorRem (x y : Int) : Int :=
  if x.tmod y ≠ 0 ∧ (x.tmod y < 0) ≠ (y < 0) then x.tmod y + y else x.tmod y

theorem floorRem_eq {x y : Int} (hy : y ≠ 0) : (floorRem x y : ℚ) = x - y * ⌊(x : ℚ) / y⌋ := by
  unfold floorRem
  have hx : y * x.tdiv y + x.tmod y = x := Int.mul_tdiv_add_tmod x y
  have hlt : (x.tmod y).natAbs < y.natAbs := by
    rw [Int.natAbs_tmod]
    exact Nat.mod_lt _ (Int.natAbs_pos.mpr hy)
  generalize x.tmod y = t at *
  split
  · rename_i ht
    simp only [ne_eq, eq_iff_iff] at ht
    have hk : x = y * (x.tdiv y - 1) + (t + y) := by rw [Int.mul_sub]; omega
    rw [floor_div_eq hk (by omega)]
    have : (x : ℚ) = y * (x.tdiv y - 1 : Int) + (t + y : Int) := by exact_mod_cast hk
    linarith
  · rename_i ht
    simp only [ne_eq, eq_iff_iff] at ht
    rw [floor_div_eq hx.symm (by omega)]
    have : (x : ℚ) = y * (x.tdiv y : Int) + (t : Int) := by exact_mod_cast hx.symm
    linarith

theorem ratio?_of_remExact {a b c d : Int} {r : Number} (hy : c * b ≠ 0)
    (h : remExact (.ratio a b) (.ratio c d) = some r) :
    ratio? (floorRem (a * d) (c * b)) (b * d) = some r := by
  simp only [remExact, Int128.mul?, Int128.rem?, Int128.add?, Option.bind_eq_bind,
    Option.bind_eq_some_iff, Int128.fit_eq_some_iff] at h
  obtain ⟨_, ⟨-, rfl⟩, _, ⟨-, rfl⟩, t, ht, h⟩ := h
  rw [if_neg hy] at ht
  obtain ⟨_, -, rfl⟩ := Option.map_eq_some_iff.mp ht
  split at h
  · rename_i hc
    obtain ⟨_, hs, h⟩ := Option.bind_eq_some_iff.mp h
    obtain ⟨-, rfl⟩ := Int128.fit_eq_some_iff.mp hs
    obtain ⟨_, hm, h⟩ := Option.bind_eq_some_iff.mp h
    obtain ⟨-, rfl⟩ := Int128.fit_eq_some_iff.mp hm
    rw [floorRem, if_pos hc]
    exact h
  · rename_i hc
    rw [Option.bind_some] at h
    obtain ⟨_, hm, h⟩ := Option.bind_eq_some_iff.mp h
    obtain ⟨-, rfl⟩ := Int128.fit_eq_some_iff.mp hm
    rw [floorRem, if_neg hc]
    exact h

theorem Is.rem {a b r : Number} {p q : ℚ} (ha : a.Is p) (hb : b.Is q) (h : a.rem? b = some r)
    (hr : r.isExact = true) : r.Is (p - q * ⌊p / q⌋) := by
  unfold rem? at h
  split at h
  · cases h
  rename_i hz
  have hq : q ≠ 0 := fun h => hz (hb.isZero_iff.mpr h)
  obtain rfl := Option.some.inj h
  rw [ha, hb] at hr ⊢
  obtain ⟨r, hr, he⟩ := orReal_of_isExact hr
  rw [he]
  have hd := den_cast_ne p
  have he := den_cast_ne q
  have hy : q.num * (p.den : Int) ≠ 0 := by
    refine mul_ne_zero (Rat.num_ne_zero.mpr hq) ?_
    exact_mod_cast p.den_ne_zero
  have hquot : p / q = ((p.num * (q.den : Int) : Int) : ℚ) / (q.num * (p.den : Int) : Int) := by
    conv_lhs => rw [eq_div p, eq_div q]
    push_cast
    rw [div_div_div_eq, mul_comm (p.den : ℚ)]
  convert is_of_ratio? (ratio?_of_remExact hy hr) using 1
  rw [floorRem_eq hy, ← hquot]
  generalize ⌊p / q⌋ = k
  conv_lhs => rw [eq_div p, eq_div q]
  push_cast at hd he ⊢
  field_simp

/-- There is a remainder by all but zero. -/
theorem Is.exists_rem {a b : Number} {q : ℚ} (hb : b.Is q) (hq : q ≠ 0) : ∃ r, a.rem? b = some r := by
  rw [rem?, if_neg (fun h => hq (hb.isZero_iff.mp h))]
  exact ⟨_, rfl⟩

/-! ## Powers -/

theorem pow_of_pow? {a v : Int} {k : Nat} (h : Int128.pow? a k = some v) : v = a ^ k := by
  unfold Int128.pow? at h
  split at h
  · rename_i ha
    obtain rfl := Option.some.inj h
    obtain rfl | rfl | rfl : a = -1 ∨ a = 0 ∨ a = 1 := by omega
    · rcases Nat.even_or_odd k with hk | hk
      · rw [hk.neg_one_pow]
        split
        · rfl
        · rw [if_pos (Nat.even_iff.mp hk)]
          rfl
      · rw [hk.neg_one_pow, if_neg (by rintro rfl; simp at hk), if_neg (by have := Nat.odd_iff.mp hk; omega)]
    · split
      · rename_i hk
        rw [hk, pow_zero]
      · rename_i hk
        rw [zero_pow hk]
        simp
    · simp
  · split at h
    · exact (Int128.fit_eq_some_iff.mp h).2.symm
    · cases h

theorem is_of_powExact {a r : Number} {p : ℚ} {e : Int} (ha : a.Is p) (h : powExact a e = some r) :
    r.Is (p ^ e) := by
  rw [ha] at h
  simp only [powExact] at h
  split at h
  · cases h
  obtain ⟨pn, hn, h⟩ := Option.bind_eq_some_iff.mp h
  obtain ⟨pd, hd, h⟩ := Option.bind_eq_some_iff.mp h
  obtain rfl := pow_of_pow? hn
  obtain rfl := pow_of_pow? hd
  split at h
  · rename_i he
    convert is_of_ratio? h using 1
    obtain ⟨k, rfl⟩ : ∃ k : Nat, e = -k := ⟨e.natAbs, by omega⟩
    conv_lhs => rw [eq_div p]
    rw [Int.natAbs_neg, Int.natAbs_natCast, zpow_neg, zpow_natCast, div_pow, inv_div]
    push_cast
    rfl
  · rename_i he
    convert is_of_ratio? h using 1
    obtain ⟨k, rfl⟩ : ∃ k : Nat, e = k := ⟨e.natAbs, by omega⟩
    conv_lhs => rw [eq_div p]
    rw [Int.natAbs_natCast, zpow_natCast, div_pow]
    push_cast
    rfl

theorem Is.pow {a b r : Number} {p q : ℚ} (ha : a.Is p) (hb : b.Is q) (hq : q.den = 1)
    (h : a.pow? b = some r) (hr : r.isExact = true) : r.Is (p ^ q.num) := by
  have hreal : ∀ {x y : Float}, powReal x y = some r → False := by
    intro x y h
    unfold powReal at h
    split at h
    · cases h
    · dsimp only at h
      split at h
      · cases h
      · cases h
        cases hr
  unfold pow? at h
  rw [hb.toInt?, if_pos hq] at h
  rw [ha] at h
  dsimp only at h
  split at h
  · cases h
  · cases he : powExact (.ratio p.num p.den) q.num with
    | none =>
      rw [he] at h
      exact (hreal h).elim
    | some v =>
      rw [he] at h
      cases h
      exact is_of_powExact rfl he

/-! ## Factorials -/

theorem foldlM_mul {ks : List Nat} {acc v : Int}
    (h : ks.foldlM (fun acc k => Int128.mul? acc (k : Nat)) acc = some v) : v = acc * (ks.prod : Nat) := by
  induction ks generalizing acc with
  | nil =>
    obtain rfl := Option.some.inj h
    simp
  | cons k ks ih =>
    rw [List.foldlM_cons] at h
    obtain ⟨w, hw, h⟩ := Option.bind_eq_some_iff.mp h
    obtain ⟨-, rfl⟩ := Int128.fit_eq_some_iff.mp hw
    rw [ih h, List.prod_cons]
    push_cast
    ring

theorem prod_factors (n : Nat) : (factors n).prod = n.factorial := by
  induction n with
  | zero => rfl
  | succ n ih =>
    cases n with
    | zero => rfl
    | succ n =>
      have hstep : factors (n + 2) = factors (n + 1) ++ [n + 2] := by
        rw [factors, factors, List.range_succ, List.drop_append_of_le_length (by simp)]
      rw [hstep, List.prod_append, List.prod_singleton, ih, Nat.factorial_succ (n + 1), Nat.mul_comm]

theorem Is.factorial {a r : Number} {p : ℚ} (ha : a.Is p) (h : a.factorial? = some r)
    (hr : r.isExact = true) : Exact.factorial? p = some (p.num.toNat.factorial : ℚ) ∧
      r.Is (p.num.toNat.factorial : ℚ) := by
  rw [ha] at h
  unfold factorial? factorialArgument? at h
  obtain ⟨n, hn, rfl⟩ := Option.map_eq_some_iff.mp h
  dsimp only at hn
  split at hn
  · rename_i hc
    obtain rfl := Option.some.inj hn
    obtain ⟨hd, h0, -⟩ := hc
    refine ⟨if_pos ⟨by exact_mod_cast hd, Rat.num_nonneg.mp h0⟩, ?_⟩
    cases hv : factorialExact p.num.toNat with
    | none =>
      rw [hv] at hr
      cases hr
    | some v =>
      have hprod := foldlM_mul hv
      rw [prod_factors, one_mul] at hprod
      rw [hprod]
      exact_mod_cast is_ofInt (p.num.toNat.factorial : Int)
  · cases hn

end Number

end Formula
