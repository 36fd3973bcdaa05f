import Mathlib.Data.Nat.Prime.Basic
import Mathlib.Tactic.NormNum.Prime
import Formula.Proofs.Number.Arithmetic
import Formula.Proofs.Number.Lowest

/-!
# When a power is exact

An integer power of a fraction is a fraction only if its exact value fits, and then it is that value
(`Word.Fraction.pow_exact_iff`). Two families of powers fit and are left to doubles all the same
(`Number.PowerInDoubles`): those of zero, one and minus one to exponents of more than 32 bits, and the one power whose
numerator `2 ^ 127` fits only once it has changed its sign. No other power to a large exponent fits, since a part
that is more than one at least doubles with every factor (`Number.le_one_of_pow_le`).
-/

namespace Formula

open Int128 (InRange fit fit_eq_some_iff fit_eq_none_iff)

namespace Number

/-- Powers that are computed in doubles although their exact value may fit. -/
def PowerInDoubles (x : ℚ) (e : Int) : Prop :=
  2 ^ 32 ≤ e.natAbs ∧ (x = 0 ∨ x = 1 ∨ x = -1) ∨ x = -1 / 2 ∧ e = -127

/-! ## Parts of a power -/

section

variable {n d e : Int}

theorem gcd_pow_eq_one (hco : Int.gcd n d = 1) (k : Nat) : Int.gcd (n ^ k) (d ^ k) = 1 := by
  rw [Int.gcd, Int.natAbs_pow, Int.natAbs_pow]
  exact Nat.Coprime.pow k k hco

theorem pow_of_nonneg (he : 0 ≤ e) : (n / d : ℚ) ^ e = ((n ^ e.natAbs : Int) : ℚ) / (d ^ e.natAbs : Int) := by
  obtain ⟨k, rfl⟩ := Int.eq_ofNat_of_zero_le he
  push_cast
  rw [Int.natAbs_natCast, zpow_natCast, div_pow]

theorem pow_of_neg (he : e < 0) : (n / d : ℚ) ^ e = ((d ^ e.natAbs : Int) : ℚ) / (n ^ e.natAbs : Int) := by
  obtain ⟨k, rfl⟩ : ∃ k : Nat, e = -k := ⟨e.natAbs, by omega⟩
  push_cast
  rw [Int.natAbs_neg, Int.natAbs_natCast, zpow_neg, zpow_natCast, div_pow, inv_div]

/-- The parts of a power are the powers of the parts. They change places when the exponent is negative, and then both
their signs if the numerator was negative. -/
theorem pow_parts (hd : 0 < d) (hco : Int.gcd n d = 1) (h0 : n = 0 → 0 ≤ e) :
    let k := e.natAbs
    let y : ℚ := (n / d : ℚ) ^ e
    0 ≤ e ∧ y.num = n ^ k ∧ (y.den : Int) = d ^ k ∨
      e < 0 ∧ 0 < n ^ k ∧ y.num = d ^ k ∧ (y.den : Int) = n ^ k ∨
      e < 0 ∧ n ^ k < 0 ∧ y.num = -d ^ k ∧ (y.den : Int) = -n ^ k := by
  intro k y
  have hdk : 0 < d ^ k := Int.pow_pos hd
  have hcok : Int.gcd (n ^ k) (d ^ k) = 1 := gcd_pow_eq_one hco k
  rcases lt_or_ge e 0 with he | he
  · have hy : y = ((d ^ k : Int) : ℚ) / (n ^ k : Int) := pow_of_neg he
    have hnk : n ^ k ≠ 0 := pow_ne_zero k fun hn => absurd (h0 hn) (Int.not_le.mpr he)
    rcases Int.lt_or_gt_of_ne hnk with hneg | hpos
    · refine .inr (.inr ⟨he, hneg, ?_⟩)
      have hy : y = ((-d ^ k : Int) : ℚ) / (-n ^ k : Int) := by
        rw [hy]
        push_cast
        rw [neg_div_neg_eq]
      refine lowest_iff.mp ⟨by omega, ?_, hy.symm⟩ |>.imp Eq.symm Eq.symm
      rw [Int.neg_gcd, Int.gcd_neg, Int.gcd_comm, hcok]
    · refine .inr (.inl ⟨he, hpos, lowest_iff.mp ⟨hpos, ?_, hy.symm⟩ |>.imp Eq.symm Eq.symm⟩)
      rw [Int.gcd_comm, hcok]
  · have hy : y = ((n ^ k : Int) : ℚ) / (d ^ k : Int) := pow_of_nonneg he
    exact .inl ⟨he, lowest_iff.mp ⟨hdk, hcok, hy.symm⟩ |>.imp Eq.symm Eq.symm⟩

/-- The exact power, as far as the exponent is small and the powers of both parts fit. -/
theorem powExact_eq (hd : 0 < d) (hco : Int.gcd n d = 1) (h0 : n = 0 → 0 ≤ e) :
    let y : ℚ := (n / d : ℚ) ^ e
    powExact (.ratio n d) e =
      if e.natAbs < 2 ^ 32 ∧ (InRange (n ^ e.natAbs) ∧ InRange (d ^ e.natAbs)) ∧ InRange y.num ∧ InRange y.den
      then some (.ratio y.num y.den) else none := by
  intro y
  have hcok : Int.gcd (n ^ e.natAbs) (d ^ e.natAbs) = 1 := gcd_pow_eq_one hco _
  have hone : InRange ((1 : Nat) : Int) := by decide
  unfold powExact
  dsimp only
  by_cases hk : Nat.pow 2 32 ≤ e.natAbs
  · rw [if_pos hk, if_neg fun h => absurd hk (Nat.not_le.mpr h.1)]
    rfl
  have hk' : e.natAbs < 2 ^ 32 := Nat.lt_of_not_le hk
  rw [if_neg hk, Word.pow?_eq_fit, Word.pow?_eq_fit]
  by_cases hn : InRange (n ^ e.natAbs)
  swap
  · rw [fit_eq_none_iff.mpr hn, if_neg fun h => hn h.2.1.1]
    rfl
  rw [fit_eq_some_iff.mpr ⟨hn, rfl⟩]
  by_cases hdk : InRange (d ^ e.natAbs)
  swap
  · rw [fit_eq_none_iff.mpr hdk, if_neg fun h => hdk h.2.1.2]
    rfl
  rw [fit_eq_some_iff.mpr ⟨hdk, rfl⟩]
  simp only [Option.bind_eq_bind, Option.bind_some, hk', hn, hdk, and_self, true_and]
  by_cases he : e < 0
  · have hne : n ^ e.natAbs ≠ 0 := pow_ne_zero _ fun hn => absurd (h0 hn) (Int.not_le.mpr he)
    rw [if_pos he, ratio?_eq hdk hn, Int.gcd_comm, hcok, ← pow_of_neg he]
    simp only [ne_eq, hne, not_false_eq_true, hone, true_and, y]
  · have hne : d ^ e.natAbs ≠ 0 := pow_ne_zero _ hd.ne'
    rw [if_neg he, ratio?_eq hn hdk, hcok, ← pow_of_nonneg (Int.not_lt.mp he)]
    simp only [ne_eq, hne, not_false_eq_true, hone, true_and, y]

end

/-! ## Powers that fit -/

/-- What is at least two outgrows the range with the 128th power. -/
theorem le_one_of_pow_le {c k : Nat} (hk : 128 ≤ k) (h : c ^ k ≤ 2 ^ 127) : c ≤ 1 := by
  by_contra hc
  have hgrow : 2 ^ 128 ≤ c ^ k := calc
    2 ^ 128 ≤ 2 ^ k := Nat.pow_le_pow_right (by decide) hk
    _ ≤ c ^ k := Nat.pow_le_pow_left (by omega) k
  omega

/-- The power `2 ^ 127` is one of two or a first power. -/
theorem eq_two_of_pow_eq {c k : Nat} (h : c ^ k = 2 ^ 127) (hc : c < 2 ^ 127) : c = 2 ∧ k = 127 := by
  have hprime : Nat.Prime 127 := by norm_num
  have hk : k ≠ 0 := by
    rintro rfl
    norm_num at h
  obtain ⟨j, -, rfl⟩ := (Nat.dvd_prime_pow Nat.prime_two).mp (h ▸ dvd_pow_self c hk)
  rw [← pow_mul] at h
  have hjk : j * k = 127 := Nat.pow_right_injective (Nat.le_refl 2) h
  rcases (Nat.dvd_prime hprime).mp ⟨k, hjk.symm⟩ with rfl | rfl
  · exact ⟨rfl, by omega⟩
  · exact absurd hc (Nat.lt_irrefl _)

/-- If a power fits and is not one of those left to doubles, then the exponent is small and the powers of both parts
fit. -/
theorem parts_fit {n d e : Int} (hd : 0 < d) (hdr : InRange d) (hco : Int.gcd n d = 1) (h0 : n = 0 → 0 ≤ e)
    (hexact : ¬ PowerInDoubles (n / d) e) (hnum : InRange ((n / d : ℚ) ^ e).num)
    (hden : InRange ((n / d : ℚ) ^ e).den) :
    e.natAbs < 2 ^ 32 ∧ InRange (n ^ e.natAbs) ∧ InRange (d ^ e.natAbs) := by
  have hparts := pow_parts hd hco h0
  dsimp only at hparts
  generalize ((n / d : ℚ) ^ e).num = p at *
  generalize (((n / d : ℚ) ^ e).den : Int) = q at *
  have hdk : 0 < d ^ e.natAbs := Int.pow_pos hd
  have hnabs : (n ^ e.natAbs).natAbs = n.natAbs ^ e.natAbs := Int.natAbs_pow ..
  have hdabs : (d ^ e.natAbs).natAbs = d.natAbs ^ e.natAbs := Int.natAbs_pow ..
  simp only [InRange, Int128.least, Int128.greatest] at hnum hden hdr ⊢
  refine ⟨?_, by omega, ?_⟩
  · by_contra hk
    -- both parts are at most one
    have hn1 : n.natAbs ≤ 1 := le_one_of_pow_le (k := e.natAbs) (by omega) (by omega)
    have hd1 : d.natAbs ≤ 1 := le_one_of_pow_le (k := e.natAbs) (by omega) (by omega)
    obtain rfl : d = 1 := by omega
    refine hexact (.inl ⟨by omega, ?_⟩)
    obtain rfl | rfl | rfl : n = 0 ∨ n = 1 ∨ n = -1 := by omega
    · exact .inl (by norm_num)
    · exact .inr (.inl (by norm_num))
    · exact .inr (.inr (by norm_num))
  · by_contra hout
    -- the denominator becomes the numerator and fits with the other sign
    have hneg : e < 0 ∧ n ^ e.natAbs < 0 ∧ d ^ e.natAbs = 170141183460469231731687303715884105728 := by omega
    obtain ⟨he, hn, hpow⟩ := hneg
    have hpow : d.natAbs ^ e.natAbs = 2 ^ 127 := by omega
    have hlt : n.natAbs ^ e.natAbs < 2 ^ 127 := by omega
    obtain ⟨hd2, hk⟩ := eq_two_of_pow_eq hpow (by omega)
    rw [hk] at hlt hn
    have hn2 : n.natAbs < 2 := lt_of_pow_lt_pow_left₀ 127 (by decide) hlt
    obtain rfl : d = 2 := by omega
    obtain rfl : n = -1 := by
      have hneg : n < 0 := (Odd.pow_neg_iff (by decide)).mp hn
      omega
    exact hexact (.inr ⟨by norm_num, by omega⟩)

/-- A power that is computed in doubles is no fraction. -/
theorem powReal_ne_ratio (x y : Float) (p q : Int) : powReal x y ≠ some (.ratio p q) := by
  unfold powReal
  split
  · simp
  · dsimp only
    split <;> simp

theorem pow?_eq_ratio_iff {n d e p q : Int} :
    (Number.ratio n d).pow? (.ofInt e) = some (.ratio p q) ↔
      (n = 0 → 0 ≤ e) ∧ powExact (.ratio n d) e = some (.ratio p q) := by
  have hint : (ofInt e).toInt? = some e := rfl
  unfold pow?
  rw [hint]
  dsimp only
  by_cases h0 : n = 0 ∧ e < 0
  · rw [if_pos h0]
    simp [h0.1, h0.2]
  · rw [if_neg h0]
    have h0' : n = 0 → 0 ≤ e := fun hn => Int.not_lt.mp fun he => h0 ⟨hn, he⟩
    cases hexact : powExact (.ratio n d) e with
    | none => simp [powReal_ne_ratio]
    | some r => exact ⟨fun h => ⟨h0', h⟩, fun h => h.2⟩

end Number

open Number (PowerInDoubles)

namespace Word.Fraction

theorem value_eq_zero_iff {a : Fraction} (ha : a.Lowest) : a.value = 0 ↔ a.num.toInt = 0 := by
  have hd : (a.den.toInt : ℚ) ≠ 0 := by exact_mod_cast ha.1.ne'
  rw [value, div_eq_zero_iff, or_iff_left hd]
  exact_mod_cast Iff.rfl

/-- An integer power of a fraction in lowest terms is a fraction exactly if it is defined, its exact value fits and it
is none of the powers that are computed in doubles; and then it is the exact value in lowest terms. -/
theorem pow_exact_iff (a : Fraction) (ha : a.Lowest) (e : Int) :
    let x := a.value
    let y := x ^ e
    ∀ p q, a.toNumber.pow? (.ofInt e) = some (.ratio p q) ↔
      (x = 0 → 0 ≤ e) ∧ ¬ PowerInDoubles x e ∧ p = y.num ∧ q = y.den ∧ InRange y.num ∧ InRange y.den := by
  intro x y p q
  obtain ⟨hd, hco⟩ := ha
  rw [toNumber, Number.pow?_eq_ratio_iff, value_eq_zero_iff ⟨hd, hco⟩]
  refine and_congr_right fun h0 => ?_
  rw [Number.powExact_eq hd hco h0, Option.ite_none_right_eq_some]
  constructor
  · rintro ⟨⟨hk, ⟨hn, hdk⟩, hnum, hden⟩, h⟩
    cases h
    refine ⟨?_, rfl, rfl, hnum, hden⟩
    rintro (⟨hlarge, -⟩ | ⟨hx, rfl⟩)
    · exact absurd hk (Nat.not_lt.mpr hlarge)
    · -- the denominator of the base is two
      have hx : (a.num.toInt : ℚ) / a.den.toInt = ((-1 : Int) : ℚ) / (2 : Int) := by
        refine Eq.trans hx ?_
        norm_num
      obtain ⟨-, hd2⟩ := Number.lowest_iff.mp ⟨hd, hco, hx⟩
      rw [Rat.den_div_eq_of_coprime (by decide) (by decide)] at hd2
      rw [hd2] at hdk
      exact absurd hdk (by decide)
  · rintro ⟨hexact, rfl, rfl, hnum, hden⟩
    obtain ⟨hk, hparts⟩ := Number.parts_fit hd (inRange_toInt a.den) hco h0 hexact hnum hden
    exact ⟨⟨hk, hparts, hnum, hden⟩, rfl⟩

/-- The least integer as a power. -/
theorem pow_minusTwo_exact :
    let a : Fraction := ⟨-2, 1⟩
    a.Lowest ∧ a.toNumber.pow? (.ofInt 127) = some (.ratio Int128.least 1) := by
  intro a
  have ha : a.Lowest := by decide
  have hx : a.value = -2 := by
    rw [value, show a.num.toInt = -2 by decide, show a.den.toInt = 1 by decide]
    norm_num
  have hy : a.value ^ (127 : Int) = (Int128.least : Int) := by
    rw [hx, Int128.least]
    norm_num
  refine ⟨ha, (pow_exact_iff a ha 127 _ _).mpr ?_⟩
  rw [hy, Rat.num_intCast, Rat.den_intCast, hx]
  refine ⟨fun _ => by decide, ?_, rfl, rfl, by decide, by decide⟩
  norm_num [PowerInDoubles]

/-- Minus one to an odd exponent of more than 53 bits, and the power `2 ^ 127` of the other sign: both fit, and neither
is a fraction. -/
theorem pow_fits_inexact :
    let a : Fraction := ⟨-1, 1⟩
    let b : Fraction := ⟨-1, 2⟩
    (a.Lowest ∧ a.value ^ (9007199254740993 : Int) = (-1 : Int) ∧
      ∀ p q, a.toNumber.pow? (.ofInt 9007199254740993) ≠ some (.ratio p q)) ∧
    (b.Lowest ∧ b.value ^ (-127 : Int) = (Int128.least : Int) ∧
      ∀ p q, b.toNumber.pow? (.ofInt (-127)) ≠ some (.ratio p q)) := by
  intro a b
  have hx : a.value = -1 := by
    rw [value, show a.num.toInt = -1 by decide, show a.den.toInt = 1 by decide]
    norm_num
  have hy : b.value = -1 / 2 := by
    rw [value, show b.num.toInt = -1 by decide, show b.den.toInt = 2 by decide]
    norm_num
  refine ⟨⟨by decide, ?_, fun p q h => ?_⟩, by decide, ?_, fun p q h => ?_⟩
  · rw [hx]
    exact_mod_cast (Odd.neg_one_zpow (by decide) : (-1 : ℚ) ^ (9007199254740993 : Int) = -1)
  · have hnone : Number.powExact a.toNumber 9007199254740993 = none := rfl
    cases hnone.symm.trans (Number.pow?_eq_ratio_iff.mp h).2
  · rw [hy, Int128.least]
    norm_num
  · have hden : ¬ InRange (b.den.toInt ^ (-127 : Int).natAbs) := by decide
    have hpow := (Number.pow?_eq_ratio_iff.mp h).2
    rw [Number.powExact_eq (by decide) (by decide) (by decide), if_neg fun hfits => hden hfits.2.1.2] at hpow
    cases hpow

end Word.Fraction

end Formula
