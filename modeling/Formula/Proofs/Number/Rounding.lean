import Mathlib.Algebra.Order.Field.Power
import Formula.Proofs.Number.Neutral

/-!
# Rounding to a double

The mantissa that is rounded comes with two bits that tell where between two integers the exact value lies
(`Represents`). A shift by one place keeps that true, so any number of shifts does, and the integer that is then taken
is at most a half away. So a value that is not too small or too large is rounded to a double of 53 bits with a relative
error of `2 ^ -53` at most (`near_round`). Doubles of 53 bits are in order as the numbers are that they stand
for (`Reads.compare_eq`).
-/

namespace Formula.Double

open Float.Model Float.Model.UnpackedFloat

/-! ## Between two integers -/

/-- The mantissa and its two bits tell where a number lies: at the mantissa, half-way to the next integer, or between
one of them and the half. -/
inductive Represents : ExtendedMantissa → ℚ → Prop where
  | exact {m : Nat} {x : ℚ} (h : x = m) : Represents ⟨m, false, false⟩ x
  | below {m : Nat} {x : ℚ} (hl : m < x) (hu : x < m + 1 / 2) : Represents ⟨m, false, true⟩ x
  | half {m : Nat} {x : ℚ} (h : x = m + 1 / 2) : Represents ⟨m, true, false⟩ x
  | above {m : Nat} {x : ℚ} (hl : m + 1 / 2 < x) (hu : x < m + 1) : Represents ⟨m, true, true⟩ x

/-- The quotient of two natural numbers, from its integral part and the remainder. -/
theorem represents_fraction (a : Nat) {b : Nat} (hb : 0 < b) :
    Represents (.ofMantissaAndAccuracy (a / b) (accuracyOfFraction (a % b) b)) ((a : ℚ) / b) := by
  have hb' : (0 : ℚ) < b := by exact_mod_cast hb
  have ha : (a : ℚ) = (b : ℚ) * (a / b : Nat) + (a % b : Nat) := by exact_mod_cast (Nat.div_add_mod a b).symm
  have hr : ((a % b : Nat) : ℚ) < b := by exact_mod_cast Nat.mod_lt a hb
  have hvalue : (a : ℚ) / b = (a / b : Nat) + ((a % b : Nat) : ℚ) / b := by
    rw [div_eq_iff hb'.ne', add_mul, div_mul_cancel₀ _ hb'.ne', mul_comm]
    exact ha
  rw [hvalue, accuracyOfFraction]
  generalize a / b = q
  generalize a % b = r at hr
  by_cases h0 : r = 0
  · rw [if_pos h0, h0, Nat.cast_zero, zero_div, add_zero]
    exact .exact rfl
  have hpos : (0 : ℚ) < r / b := div_pos (by exact_mod_cast Nat.pos_of_ne_zero h0) hb'
  rw [if_neg h0]
  cases hc : compare (2 * r) b with
  | lt =>
    have hlt : (2 * r : ℚ) < b := by exact_mod_cast Nat.compare_eq_lt.mp hc
    refine .below (by linarith) (add_lt_add_right ?_ _)
    rw [div_lt_iff₀ hb']
    linarith
  | eq =>
    have heq : (2 * r : ℚ) = b := by exact_mod_cast Nat.compare_eq_eq.mp hc
    refine .half (congrArg _ ?_)
    rw [div_eq_iff hb'.ne']
    linarith
  | gt =>
    have hgt : (b : ℚ) < 2 * r := by exact_mod_cast Nat.compare_eq_gt.mp hc
    refine .above (add_lt_add_right ?_ _) (add_lt_add_right ?_ _)
    · rw [lt_div_iff₀ hb']
      linarith
    · rwa [div_lt_one hb']

namespace Represents

variable {em : ExtendedMantissa} {x : ℚ}

theorem bounds (h : Represents em x) : em.mantissa ≤ x ∧ x < em.mantissa + 1 := by
  cases h <;> constructor <;> dsimp only <;> linarith

/-- Half a number: the lowest bit of the mantissa becomes the first bit behind it. -/
theorem shiftRightOne (h : Represents em x) : Represents em.shiftRightOne (x / 2) := by
  obtain ⟨m, r, s⟩ := em
  obtain ⟨q, rfl | rfl⟩ : ∃ q, m = 2 * q ∨ m = 2 * q + 1 := ⟨m / 2, by omega⟩
  · have hshift : ExtendedMantissa.shiftRightOne ⟨2 * q, r, s⟩ = ⟨q, false, r || s⟩ := by
      simp [ExtendedMantissa.shiftRightOne]
    rw [hshift]
    cases h with
    | exact h =>
      push_cast at h
      exact .exact (by linarith)
    | below hl hu | above hl hu =>
      push_cast at hl hu
      exact .below (by linarith) (by linarith)
    | half h =>
      push_cast at h
      exact .below (by linarith) (by linarith)
  · have hshift : ExtendedMantissa.shiftRightOne ⟨2 * q + 1, r, s⟩ = ⟨q, true, r || s⟩ := by
      simp [ExtendedMantissa.shiftRightOne]
      omega
    rw [hshift]
    cases h with
    | exact h =>
      push_cast at h
      exact .half (by linarith)
    | below hl hu | above hl hu =>
      push_cast at hl hu
      exact .above (by linarith) (by linarith)
    | half h =>
      push_cast at h
      exact .above (by linarith) (by linarith)

theorem shiftRight (h : Represents em x) (k : Nat) : Represents (em >>> k) (x / 2 ^ k) := by
  show Represents (k.repeat ExtendedMantissa.shiftRightOne em) _
  induction k with
  | zero => simpa [Nat.repeat] using h
  | succ k ih =>
    rw [Nat.repeat, pow_succ, ← div_div]
    exact ih.shiftRightOne

/-- The rounded mantissa is a nearest integer. -/
theorem abs_rounded_sub_le (h : Represents em x) : |(em.roundedMantissa : ℚ) - x| ≤ 1 / 2 := by
  rw [abs_le]
  cases h with
  | @exact m _ h =>
    have hr : (ExtendedMantissa.mk m false false).roundedMantissa = m := rfl
    rw [hr]
    constructor <;> linarith
  | @below m _ hl hu =>
    have hr : (ExtendedMantissa.mk m false true).roundedMantissa = m := rfl
    rw [hr]
    constructor <;> linarith
  | @half m _ h =>
    -- a tie goes to the even integer
    have hr : (ExtendedMantissa.mk m true false).roundedMantissa = m + m % 2 := rfl
    have hm : ((m % 2 : Nat) : ℚ) ≤ 1 := by exact_mod_cast Nat.le_of_lt_succ (Nat.mod_lt m (by decide))
    rw [hr, Nat.cast_add]
    constructor <;> linarith [Nat.cast_nonneg (α := ℚ) (m % 2)]
  | @above m _ hl hu =>
    have hr : (ExtendedMantissa.mk m true true).roundedMantissa = m + 1 := rfl
    rw [hr, Nat.cast_add, Nat.cast_one]
    constructor <;> linarith

/-- A number of 53 bits in front of the point is rounded to one of 53 bits, or to the first one of 54. -/
theorem rounded_bounds (h : Represents em x) (hl : 2 ^ 52 ≤ x) (hu : x < 2 ^ 53) :
    2 ^ 52 ≤ em.roundedMantissa ∧ em.roundedMantissa ≤ 2 ^ 53 := by
  obtain ⟨hrl, hru⟩ := abs_le.mp h.abs_rounded_sub_le
  have hl : (2 : ℚ) ^ 52 < em.roundedMantissa + 1 := by linarith
  have hu : (em.roundedMantissa : ℚ) < 2 ^ 53 + 1 := by linarith
  exact ⟨Nat.le_of_lt_succ (by exact_mod_cast hl), Nat.le_of_lt_succ (by exact_mod_cast hu)⟩

end Represents

/-! ## The numbers that doubles stand for -/

/-- The sign as a factor. -/
def sign : Sign → ℚ
  | .positive => 1
  | .negative => -1

/-- The double has 53 bits and stands for the number. -/
inductive Reads (x : Float) : ℚ → Prop where
  | intro {s : Sign} {m : Nat} {e : Int} {hm : 0 < m} (hx : x.toModel.unpack = .finite s m e hm)
      (hk : m.log2 = 52) (hl : -1074 ≤ e) (hu : e < 972) : Reads x (sign s * (m * 2 ^ e))

/-- The double has 53 bits and stands for the number but for a relative error. -/
def Near (x : Float) (v error : ℚ) : Prop := ∃ δ, |δ| ≤ error ∧ Reads x (v * (1 + δ))

/-- The greatest relative error of rounding to 53 bits. -/
def roundoff : ℚ := 2 ^ (-53 : Int)

/-- The number is of a size that doubles have 53 bits for. -/
def Moderate (v : ℚ) : Prop := 2 ^ (-1000 : Int) ≤ v ∧ v ≤ 2 ^ (1000 : Int)

/-! ## Doubles of 53 bits -/

section

variable {s : Sign} {m k : Nat} {e : Int} {x : ℚ}

theorem two_zpow_pos (e : Int) : (0 : ℚ) < 2 ^ e := zpow_pos two_pos e

theorem two_zpow_add (a b : Int) : (2 : ℚ) ^ (a + b) = 2 ^ a * 2 ^ b := zpow_add₀ two_ne_zero a b

/-- A number of this many bits. -/
theorem bounds_of_log2 (hm : 0 < m) (hk : m.log2 = k) : 2 ^ k ≤ m ∧ m < 2 ^ (k + 1) :=
  (Nat.log2_eq_iff hm.ne').mp hk

theorem size_bounds (hm : 0 < m) (hk : m.log2 = 52) (e : Int) :
    (2 : ℚ) ^ (52 + e) ≤ m * 2 ^ e ∧ (m : ℚ) * 2 ^ e < 2 ^ (53 + e) := by
  obtain ⟨hl, hu⟩ := bounds_of_log2 hm hk
  have hl : (2 : ℚ) ^ (52 : Int) ≤ m := by exact_mod_cast hl
  have hu : (m : ℚ) < 2 ^ (53 : Int) := by exact_mod_cast hu
  rw [two_zpow_add, two_zpow_add]
  exact ⟨mul_le_mul_of_nonneg_right hl (two_zpow_pos e).le, mul_lt_mul_of_pos_right hu (two_zpow_pos e)⟩

/-- Cutting a mantissa to 53 bits. -/
theorem shiftToTargetExponent_eq {accuracy : Accuracy} (hk : m.log2 = 52 + k) (he : -1074 ≤ e + k) :
    shiftToTargetExponent Format.binary64 m e accuracy =
      (ExtendedMantissa.ofMantissaAndAccuracy m accuracy >>> k, e + k) := by
  have htarget : Format.binary64.targetExponent (totalExponent m e) = e + k := by
    rw [totalExponent, hk]
    show max (_ - (53 : Int)) (-1074) = _
    omega
  rw [shiftToTargetExponent, htarget, shiftToExponent]
  have hamount : (e + k - e).toNat = k := by omega
  rw [hamount]

/-- A mantissa that rounding took up to 54 bits gives its last one back. -/
theorem exists_carry {r : Nat} (hl : 2 ^ 52 ≤ r) (hu : r ≤ 2 ^ 53) (he : -1074 ≤ e) :
    ∃ m' e', shiftToTargetExponent Format.binary64 r e .exact = (⟨m', false, false⟩, e') ∧ 0 < m' ∧ m'.log2 = 52 ∧
      -1074 ≤ e' ∧ (m' : ℚ) * 2 ^ e' = r * 2 ^ e := by
  rcases Nat.lt_or_eq_of_le hu with hlt | rfl
  · have hr : r.log2 = 52 := (Nat.log2_eq_iff (by omega)).mpr ⟨hl, hlt⟩
    refine ⟨r, e, ?_, by omega, hr, he, rfl⟩
    rw [shiftToTargetExponent_eq (k := 0) hr (by omega)]
    exact Prod.ext rfl (Int.add_zero e)
  · refine ⟨2 ^ 52, e + 1, ?_, by decide, Nat.log2_two_pow, by omega, ?_⟩
    · have hdouble : (2 : Nat) ^ 53 = 2 ^ 1 * 2 ^ 52 := rfl
      rw [shiftToTargetExponent_eq (k := 1) Nat.log2_two_pow (by omega), hdouble]
      exact Prod.ext (shiftRight_mul (2 ^ 52) 1) rfl
    · rw [two_zpow_add]
      push_cast
      ring

theorem mantissa_ofMantissaAndAccuracy (m : Nat) (accuracy : Accuracy) :
    (ExtendedMantissa.ofMantissaAndAccuracy m accuracy).mantissa = m := by
  rcases accuracy with _ | _ | _ | _ <;> rfl

/-- What a mantissa of so many bits more than 52 represents. -/
theorem represented_bounds {accuracy : Accuracy} (h : Represents (.ofMantissaAndAccuracy m accuracy) x) (hm : 0 < m)
    (hk : m.log2 = 52 + k) : (2 : ℚ) ^ 52 * 2 ^ k ≤ x ∧ x < 2 ^ 53 * 2 ^ k := by
  obtain ⟨hl, hu⟩ := h.bounds
  obtain ⟨hml, hmu⟩ := bounds_of_log2 hm hk
  rw [mantissa_ofMantissaAndAccuracy] at hl hu
  rw [pow_add] at hml
  rw [show 52 + k + 1 = 53 + k by omega, pow_add] at hmu
  have hml : (2 : ℚ) ^ 52 * 2 ^ k ≤ m := by exact_mod_cast hml
  have hmu : (m : ℚ) + 1 ≤ 2 ^ 53 * 2 ^ k := by exact_mod_cast hmu
  exact ⟨hml.trans hl, hu.trans_le hmu⟩

/-- What is rounded to 53 bits keeps its value but for a relative error of half a bit. -/
theorem exists_round {accuracy : Accuracy} (h : Represents (.ofMantissaAndAccuracy m accuracy) x) (hm : 0 < m)
    (hk : m.log2 = 52 + k) (he : -1074 ≤ e + k) :
    ∃ m' e' h', roundWithAccuracy Format.binary64 s m e accuracy = .finite s m' e' h' ∧ m'.log2 = 52 ∧
      -1074 ≤ e' ∧ |(m' : ℚ) * 2 ^ e' - x * 2 ^ e| ≤ roundoff * (x * 2 ^ e) := by
  have hk0 : (0 : ℚ) < 2 ^ k := pow_pos two_pos k
  obtain ⟨hl, hu⟩ := represented_bounds h hm hk
  -- the number in units of the last bit that is kept
  obtain ⟨y, rfl⟩ : ∃ y, x = y * 2 ^ k := ⟨x / 2 ^ k, (div_mul_cancel₀ x hk0.ne').symm⟩
  have hl : 2 ^ 52 ≤ y := le_of_mul_le_mul_right hl hk0
  have hu : y < 2 ^ 53 := lt_of_mul_lt_mul_right hu hk0.le
  have hcut := h.shiftRight k
  rw [mul_div_cancel_right₀ _ hk0.ne'] at hcut
  obtain ⟨hrl, hru⟩ := hcut.rounded_bounds hl hu
  obtain ⟨m', e', hcarry, hm', hlog, he', hvalue⟩ := exists_carry hrl hru he
  refine ⟨m', e', hm', ?_, hlog, he', ?_⟩
  · unfold roundWithAccuracy
    rw [shiftToTargetExponent_eq hk he]
    dsimp only
    rw [hcarry]
    exact dif_neg hm'.ne'
  · have hunit : y * 2 ^ k * 2 ^ e = y * 2 ^ (e + k) := by
      rw [two_zpow_add, zpow_natCast]
      ring
    rw [hvalue, hunit, ← sub_mul, abs_mul, abs_of_pos (two_zpow_pos _), ← mul_assoc]
    refine mul_le_mul_of_nonneg_right (hcut.abs_rounded_sub_le.trans ?_) (two_zpow_pos _).le
    norm_num [roundoff]
    linarith

theorem sign_packComponents (s : Sign) (exponent : BitVec 11) (mantissa : BitVec 52) :
    Sign.ofBitVec (unpackSign (packComponents Format.binary64 s exponent mantissa)) = s := by
  have hsign : unpackSign (packComponents Format.binary64 s exponent mantissa) = s.toBitVec := by
    refine BitVec.eq_of_getLsbD_eq fun i hi => ?_
    obtain rfl : i = 0 := by omega
    rw [unpackSign_eq, BitVec.getLsbD_cast, BitVec.getLsbD_extractLsb]
    show (true && (s.toBitVec ++ exponent ++ mantissa).getLsbD 63) = _
    simp only [BitVec.getLsbD_append, Bool.true_and]
    rfl
  rw [hsign]
  cases s <;> rfl

/-- A double of 53 bits survives being packed. -/
theorem unpack_pack (hm : 0 < m) (hk : m.log2 = 52) (hl : -1074 ≤ e) (hu : e < 972) :
    UnpackedFloat.unpack Format.binary64 (UnpackedFloat.pack Format.binary64 (.finite s m e hm)) =
      .finite s m e hm := by
  obtain ⟨hml, hmu⟩ := bounds_of_log2 hm hk
  rw [pack_normal hm hk hu]
  have hexponent : (BitVec.ofNat 11 (e + 1075).toNat).toNat = (e + 1075).toNat := by
    rw [BitVec.toNat_ofNat, Nat.mod_eq_of_lt (by omega)]
  have hmantissa : (1#1 ++ BitVec.ofNat 52 m).toNat = m := by
    rw [toNat_implicit, BitVec.toNat_ofNat]
    omega
  have hfull : BitVec.ofNat 11 (e + 1075).toNat ≠ -1 := fun h => by
    rw [h] at hexponent
    have : (-1 : BitVec 11).toNat = 2047 := rfl
    omega
  have hzero : BitVec.ofNat 11 (e + 1075).toNat ≠ 0 := fun h => by
    rw [h] at hexponent
    have : (0 : BitVec 11).toNat = 0 := rfl
    omega
  have hcases := unpack_cases (packComponents Format.binary64 s (BitVec.ofNat 11 (e + 1075).toNat) (BitVec.ofNat 52 m))
  rw [unpackExponent_packComponents, unpackMantissa_packComponents, sign_packComponents] at hcases
  obtain ⟨hc, -⟩ | ⟨hc, -⟩ | ⟨hc, -⟩ | ⟨hc, -⟩ | ⟨-, -, _, hunpack⟩ := hcases
  · exact absurd hc hfull
  · exact absurd hc hfull
  · exact absurd hc hzero
  · exact absurd hc hzero
  · rw [hunpack, finite.injEq]
    exact ⟨rfl, hmantissa, by omega⟩

/-- The last bit that is kept of a value that is not too small. -/
theorem le_exponent {accuracy : Accuracy} (h : Represents (.ofMantissaAndAccuracy m accuracy) x) (hm : 0 < m)
    (hk : m.log2 = 52 + k) (hx : 2 ^ (-1000 : Int) ≤ x * 2 ^ e) : -1074 ≤ e + k := by
  have hsize : (2 : ℚ) ^ (-1000 : Int) < 2 ^ (53 + k + e : Int) := calc
    2 ^ (-1000 : Int) ≤ x * 2 ^ e := hx
    _ < 2 ^ 53 * 2 ^ k * 2 ^ e := mul_lt_mul_of_pos_right (represented_bounds h hm hk).2 (two_zpow_pos e)
    _ = 2 ^ (53 + k + e : Int) := by
      rw [two_zpow_add, two_zpow_add, zpow_natCast]
      rfl
  have := (zpow_lt_zpow_iff_right₀ one_lt_two).mp hsize
  omega

/-- The exponent of a value that is not too large. -/
theorem exponent_lt (hm : 0 < m) (hk : m.log2 = 52) (hx : (m : ℚ) * 2 ^ e ≤ 2 ^ (1001 : Int)) : e < 972 := by
  have := (zpow_le_zpow_iff_right₀ one_lt_two).mp ((size_bounds hm hk e).1.trans hx)
  omega

/-- A value of moderate size is rounded to a double of 53 bits, with half of the last bit as the greatest error. -/
theorem near_round {accuracy : Accuracy} (h : Represents (.ofMantissaAndAccuracy m accuracy) x) (hm : 2 ^ 52 ≤ m)
    (hx : Moderate (x * 2 ^ e)) :
    Near (.ofModel (Float.Model.pack (roundWithAccuracy Format.binary64 s m e accuracy))) (sign s * (x * 2 ^ e))
      roundoff := by
  have hm0 : 0 < m := by omega
  have hpos : 0 < x * 2 ^ e := (two_zpow_pos _).trans_le hx.1
  obtain ⟨k, hk⟩ : ∃ k, m.log2 = 52 + k := Nat.exists_eq_add_of_le ((Nat.le_log2 hm0.ne').mpr hm)
  obtain ⟨m', e', hm', hround, hk', hl, herror⟩ := exists_round (s := s) h hm0 hk (le_exponent h hm0 hk hx.1)
  have hu : e' < 972 := by
    refine exponent_lt hm' hk' ?_
    have hunit : roundoff * (x * 2 ^ e) ≤ 1 * (x * 2 ^ e) :=
      mul_le_mul_of_nonneg_right (by norm_num [roundoff]) hpos.le
    calc (m' : ℚ) * 2 ^ e' ≤ 2 * (x * 2 ^ e) := by linarith [le_abs_self ((m' : ℚ) * 2 ^ e' - x * 2 ^ e)]
      _ ≤ 2 * 2 ^ (1000 : Int) := mul_le_mul_of_nonneg_left hx.2 two_pos.le
      _ = 2 ^ (1001 : Int) := by rw [show (1001 : Int) = 1 + 1000 from rfl, two_zpow_add, zpow_one]
  have hread : Reads (.ofModel (Float.Model.pack (.finite s m' e' hm'))) (sign s * (m' * 2 ^ e')) :=
    .intro (unpack_pack hm' hk' hl hu) hk' hl hu
  rw [hround]
  refine ⟨(m' * 2 ^ e' - x * 2 ^ e) / (x * 2 ^ e), ?_, ?_⟩
  · rwa [abs_div, abs_of_pos hpos, div_le_iff₀ hpos]
  · rwa [mul_assoc, mul_one_add, mul_div_cancel₀ _ hpos.ne', add_sub_cancel]

end

/-! ## Order -/

theorem compare_congr {α β : Type*} [LinearOrder α] [LinearOrder β] {a b : α} {c d : β} (hlt : a < b ↔ c < d)
    (hgt : b < a ↔ d < c) : compare a b = compare c d := by
  rcases lt_trichotomy a b with h | rfl | h
  · rw [compare_lt_iff_lt.mpr h, compare_lt_iff_lt.mpr (hlt.mp h)]
  · have hcd : c = d := le_antisymm (not_lt.mp (mt hgt.mpr (lt_irrefl a))) (not_lt.mp (mt hlt.mpr (lt_irrefl a)))
    rw [compare_eq_iff_eq.mpr rfl, compare_eq_iff_eq.mpr hcd]
  · rw [compare_gt_iff_gt.mpr h, compare_gt_iff_gt.mpr (hgt.mp h)]

/-- Numbers of 53 bits are in order as their exponents, and then as their mantissas. -/
theorem compare_size {m m' : Nat} {e e' : Int} (hm : 0 < m) (hk : m.log2 = 52) (hm' : 0 < m') (hk' : m'.log2 = 52) :
    (compare e e').then (compare m m') = compare ((m : ℚ) * 2 ^ e) (m' * 2 ^ e') := by
  have hlt : ∀ {m m' : Nat} {e e' : Int}, 0 < m → m.log2 = 52 → 0 < m' → m'.log2 = 52 → e < e' →
      (m : ℚ) * 2 ^ e < m' * 2 ^ e' := by
    intro m m' e e' hm hk hm' hk' he
    calc (m : ℚ) * 2 ^ e < 2 ^ (53 + e) := (size_bounds hm hk e).2
      _ ≤ 2 ^ (52 + e') := zpow_le_zpow_right₀ one_le_two (by omega)
      _ ≤ m' * 2 ^ e' := (size_bounds hm' hk' e').1
  rcases lt_trichotomy e e' with he | rfl | he
  · rw [compare_lt_iff_lt.mpr he, compare_lt_iff_lt.mpr (hlt hm hk hm' hk' he)]
    rfl
  · have hpos := two_zpow_pos e
    have hmono : ∀ {m m' : Nat}, m < m' ↔ (m : ℚ) * 2 ^ e < m' * 2 ^ e := by
      intro m m'
      rw [mul_lt_mul_iff_left₀ hpos, Nat.cast_lt]
    rw [compare_eq_iff_eq.mpr (rfl : e = e), ← compare_congr hmono hmono]
    rfl
  · rw [compare_gt_iff_gt.mpr he, compare_gt_iff_gt.mpr (hlt hm' hk' hm hk he)]
    rfl

/-- Doubles of 53 bits are in order as the numbers are that they stand for. -/
theorem Reads.compare_eq {x y : Float} {v w : ℚ} (hx : Reads x v) (hy : Reads y w) :
    x.toModel.unpack.compare y.toModel.unpack = some (compare v w) := by
  obtain @⟨s, m, e, hm, hx, hk, -, -⟩ := hx
  obtain @⟨s', m', e', hm', hy, hk', -, -⟩ := hy
  have hpos : (0 : ℚ) < m * 2 ^ e := (two_zpow_pos _).trans_le (size_bounds hm hk e).1
  have hpos' : (0 : ℚ) < m' * 2 ^ e' := (two_zpow_pos _).trans_le (size_bounds hm' hk' e').1
  have hsize : (compare e e').then (compare m m') = compare ((m : ℚ) * 2 ^ e) (m' * 2 ^ e') :=
    compare_size hm hk hm' hk'
  rw [hx, hy]
  generalize (m : ℚ) * 2 ^ e = a at *
  generalize (m' : ℚ) * 2 ^ e' = b at *
  cases s <;> cases s'
  · show _ = some (compare (-1 * a) (-1 * b))
    have hneg : compare (-1 * a) (-1 * b) = compare b a :=
      compare_congr (by constructor <;> intro h <;> linarith) (by constructor <;> intro h <;> linarith)
    rw [hneg, Std.OrientedOrd.eq_swap, ← hsize]
    rfl
  · show _ = some (compare (-1 * a) (1 * b))
    rw [compare_lt_iff_lt.mpr (by linarith)]
    rfl
  · show _ = some (compare (1 * a) (-1 * b))
    rw [compare_gt_iff_gt.mpr (by linarith)]
    rfl
  · show _ = some (compare (1 * a) (1 * b))
    rw [Rat.one_mul, Rat.one_mul, ← hsize]
    rfl

end Formula.Double
