import Mathlib.Tactic.NormNum.Pow
import Formula.Proofs.Number.Rounding

/-!
# The double of a fraction

An integer of the range becomes a double with the relative error of one rounding (`near_ofInt`). The quotient of two
such doubles is rounded once more, and in all its error is less than four times as large (`near_div`). So the double of
a fraction is near to it (`Number.near_toFloat`).
-/

namespace Formula

open Float.Model Float.Model.UnpackedFloat

namespace Double

/-! ## Integers -/

/-- One is neutral on the right as well, as the least of the powers of ten. -/
theorem mul_one {x : Float} {v : ℚ} (h : Reads x v) : x * Float.exactlyRepresentablePowersOfTen[0] = x := by
  obtain @⟨s, m, e, hm, hx, hk, hl, hu⟩ := h
  conv_rhs => rw [← ofModel_pack_unpack x]
  show Float.ofModel (Float.Model.pack (UnpackedFloat.mul _ x.toModel.unpack
    (.finite .positive (2 ^ 52) (-52) (by decide)))) = _
  have hsign : s * Sign.positive = s := by cases s <;> rfl
  have hround : roundWithAccuracy Format.binary64 (s * Sign.positive) (m * 2 ^ 52) (e + -52) .exact =
      .finite s m e hm := by
    rw [hsign, Nat.mul_comm, Int.add_comm]
    exact round_canonical hm (.inl ⟨hk, hl⟩)
  rw [hx]
  exact congrArg (fun u => Float.ofModel (Float.Model.pack u)) hround

/-- A natural number whose mantissa was filled up to 53 bits or more. -/
theorem near_filled {n k : Nat} (hk : 2 ^ 52 ≤ n * 2 ^ k) (hn : Moderate n) :
    Near (.ofModel (Float.Model.pack (roundWithAccuracy Format.binary64 .positive (n * 2 ^ k) (-k) .exact))) n
      roundoff := by
  have hvalue : ((n * 2 ^ k : Nat) : ℚ) * 2 ^ (-k : Int) = n := by
    rw [zpow_neg, zpow_natCast]
    push_cast
    exact mul_inv_cancel_right₀ (pow_ne_zero k two_ne_zero) _
  have hexact : Represents (.ofMantissaAndAccuracy (n * 2 ^ k) .exact) (n * 2 ^ k : Nat) := .exact rfl
  have hnear := near_round (s := .positive) (e := -k) hexact hk (by rwa [hvalue])
  rwa [hvalue, sign, Rat.one_mul] at hnear

/-- A natural number that is converted as a machine integer. -/
theorem near_toUInt64 {n : Nat} (hn : 0 < n) (hu : n < 2 ^ 53) (hm : Moderate n) :
    Near n.toUInt64.toFloat n roundoff := by
  have hlog : n.log2 ≤ 52 := Nat.le_of_lt_succ ((Nat.log2_lt hn.ne').mpr hu)
  obtain ⟨k, hk⟩ : ∃ k, n.log2 + k = 52 := ⟨52 - n.log2, by omega⟩
  have hnat : n.toUInt64.toNat = n := Nat.mod_eq_of_lt (by omega)
  have hnormal : UnpackedFloat.ofUInt64 Format.binary64 n.toUInt64 =
      UnpackedFloat.round Format.binary64 .positive n 0 := by
    show UnpackedFloat.normalize Format.binary64 (n.toUInt64.toNat : Int) 0 .positive = _
    rw [hnat, UnpackedFloat.normalize, compare_gt_iff_gt.mpr (show (n : Int) > 0 by omega)]
    rfl
  have htarget : Format.binary64.targetExponent (totalExponent n 0) = -k := by
    rw [totalExponent]
    show max (_ - (53 : Int)) (-1074) = _
    omega
  have hround : UnpackedFloat.round Format.binary64 .positive n 0 =
      roundWithAccuracy Format.binary64 .positive (n * 2 ^ k) (-k) .exact := by
    rw [UnpackedFloat.round, htarget, UnpackedFloat.decreaseExponent]
    have hshift : (0 - -(k : Int)).toNat = k := by omega
    rw [hshift]
    dsimp only
    rw [Nat.shiftLeft_eq, Int.zero_sub]
  have hfilled : 2 ^ 52 ≤ n * 2 ^ k := by
    rw [← hk, Nat.pow_add]
    exact Nat.mul_le_mul_right _ (Nat.log2_self_le hn.ne')
  show Near (.ofModel (Float.Model.pack (UnpackedFloat.ofUInt64 Format.binary64 n.toUInt64))) n roundoff
  rw [hnormal, hround]
  exact near_filled hfilled hm

theorem moderate_of_le {v : ℚ} (hl : 2 ^ (-128 : Int) ≤ v) (hu : v ≤ 2 ^ (128 : Int)) : Moderate v :=
  ⟨(zpow_le_zpow_right₀ one_le_two (by decide)).trans hl, hu.trans (zpow_le_zpow_right₀ one_le_two (by decide))⟩

/-- A natural number as a decimal without places. -/
theorem ofScientific_zero (format : Format) {n : Nat} (hn : 0 < n) :
    UnpackedFloat.ofScientific format n 0 =
      roundWithAccuracy format .positive (n * 2 ^ format.mantissaBits) (-(format.mantissaBits : Int)) .exact := by
  have hbits : (0 : Int) < 2 ^ format.exponentBits := Int.pow_pos (by decide)
  have hhigh : ¬ (0 : Int) > 2 ^ format.exponentBits := by omega
  have hlow : ¬ (0 : Int) < -(2 ^ format.exponentBits + n.log2) := by omega
  rw [UnpackedFloat.ofScientific, dif_neg hn.ne', if_neg hhigh, if_neg hlow, if_pos (Int.le_refl 0)]
  show roundWithAccuracy _ .positive (n <<< format.mantissaBits * 10 ^ 0) (-(format.mantissaBits : Int) + 0) .exact = _
  rw [Nat.shiftLeft_eq, Nat.pow_zero, Nat.mul_one, Int.add_zero]

theorem near_ofNat {n : Nat} (hn : 0 < n) (hu : n ≤ 2 ^ 127) : Near (Float.ofNat n) n roundoff := by
  have hm : Moderate (n : ℚ) := by
    have hl : (1 : ℚ) ≤ n := by exact_mod_cast hn
    have hu : (n : ℚ) ≤ 2 ^ 127 := by exact_mod_cast hu
    exact moderate_of_le (hl.trans' (by norm_num)) (hu.trans (by norm_num))
  by_cases hsmall : n < 2 ^ 53
  · have hdef : Float.ofNat n = n.toUInt64.toFloat * Float.exactlyRepresentablePowersOfTen[0] :=
      dif_pos (show n < 2 ^ 53 ∧ 0 ≤ 22 from ⟨hsmall, by decide⟩)
    obtain ⟨δ, hδ, hreads⟩ := near_toUInt64 hn hsmall hm
    rw [hdef, mul_one hreads]
    exact ⟨δ, hδ, hreads⟩
  · have hdef : Float.ofNat n = .ofModel (Float.Model.ofScientific n 0) :=
      dif_neg (show ¬ (n < 2 ^ 53 ∧ 0 ≤ 22) from fun h => hsmall h.1)
    rw [hdef, Float.Model.ofScientific, ofScientific_zero Format.binary64 hn]
    exact near_filled (k := 53) (by omega) hm

theorem reads_neg {x : Float} {v : ℚ} (h : Reads x v) : Reads (-x) (-v) := by
  obtain @⟨s, m, e, hm, hx, hk, hl, hu⟩ := h
  have hneg : (-x).toModel.unpack = .finite (-s) m e hm := by
    show UnpackedFloat.unpack _ (UnpackedFloat.pack _ x.toModel.unpack.neg) = _
    rw [hx]
    exact unpack_pack hm hk hl hu
  have hsign : sign (-s) = -sign s := by cases s <;> rfl
  rw [← neg_mul, ← hsign]
  exact .intro hneg hk hl hu

/-- An integer of the range becomes a double by one rounding. -/
theorem near_ofInt {n : Int} (hn : n ≠ 0) (hr : Int128.InRange n) : Near (Float.ofInt n) n roundoff := by
  simp only [Int128.InRange, Int128.least, Int128.greatest] at hr
  cases n with
  | ofNat n =>
    rw [Int.ofNat_eq_natCast] at hn hr
    exact near_ofNat (n := n) (by omega) (by omega)
  | negSucc n =>
    obtain ⟨δ, hδ, hreads⟩ := near_ofNat (n := n + 1) (by omega) (by omega)
    refine ⟨δ, hδ, ?_⟩
    rw [Int.cast_negSucc, neg_mul]
    exact reads_neg hreads

/-! ## Quotients -/

theorem sign_div (s s' : Sign) : sign (s / s') = sign s / sign s' := by
  cases s <;> cases s' <;> simp only [sign] <;> norm_num <;> rfl

section

variable {m m' : Nat} {e e' : Int}

/-- The mantissa of a quotient: enough places are added for 53 bits. -/
theorem divCore_eq (hk : m.log2 = 52) (hk' : m'.log2 = 52) (he : -1000 ≤ e - e') :
    divCore Format.binary64 m e m' e' =
      (m * 2 ^ 53 / m', e - e' - 53, accuracyOfFraction (m * 2 ^ 53 % m') m') := by
  have htarget : min (e - e') (Format.binary64.targetExponent (totalExponent m e - totalExponent m' e')) =
      e - e' - 53 := by
    rw [totalExponent, totalExponent, hk, hk']
    show min _ (max (_ - (53 : Int)) (-1074)) = _
    omega
  have hshift : (e - e' - (e - e' - 53)).toNat = 53 := by omega
  rw [divCore, htarget, hshift, Nat.shiftLeft_eq]

/-- The quotient of two doubles of 53 bits is rounded once. -/
theorem div_finite_eq {s s' : Sign} (hm : 0 < m) (hk : m.log2 = 52) (hm' : 0 < m') (hk' : m'.log2 = 52)
    (he : -1000 ≤ e - e') :
    UnpackedFloat.div Format.binary64 (.finite s m e hm) (.finite s' m' e' hm') =
      roundWithAccuracy Format.binary64 (s / s') (m * 2 ^ 53 / m') (e - e' - 53)
        (accuracyOfFraction (m * 2 ^ 53 % m') m') := by
  show (fun q : Nat × Int × Accuracy => roundWithAccuracy Format.binary64 (s / s') q.1 q.2.1 q.2.2)
    (divCore Format.binary64 m e m' e') = _
  rw [divCore_eq hk hk' he]

theorem le_mantissa (hm : 0 < m) (hk : m.log2 = 52) (hm' : 0 < m') (hk' : m'.log2 = 52) :
    2 ^ 52 ≤ m * 2 ^ 53 / m' := by
  obtain ⟨hl, -⟩ := bounds_of_log2 hm hk
  obtain ⟨-, hu⟩ := bounds_of_log2 hm' hk'
  rw [Nat.le_div_iff_mul_le hm']
  omega

theorem quotient_value : ((m * 2 ^ 53 : Nat) : ℚ) / m' * 2 ^ (e - e' - 53) = m * 2 ^ e / (m' * 2 ^ e') := by
  rw [zpow_sub₀ two_ne_zero, zpow_sub₀ two_ne_zero]
  push_cast
  have := (two_zpow_pos e').ne'
  field_simp

end

/-- The quotient of two doubles is that of their numbers, rounded once. -/
theorem near_quotient {x y : Float} {v w : ℚ} (hx : Reads x v) (hy : Reads y w) (h : Moderate |v / w|) :
    Near (x / y) (v / w) roundoff := by
  obtain @⟨s, m, e, hm, hx, hk, -, -⟩ := hx
  obtain @⟨s', m', e', hm', hy, hk', -, -⟩ := hy
  obtain ⟨hl, hu⟩ := size_bounds hm hk e
  obtain ⟨hl', hu'⟩ := size_bounds hm' hk' e'
  have hpos : (0 : ℚ) < m * 2 ^ e / (m' * 2 ^ e') :=
    div_pos ((two_zpow_pos _).trans_le hl) ((two_zpow_pos _).trans_le hl')
  have hvalue : sign s * (m * 2 ^ e) / (sign s' * (m' * 2 ^ e')) = sign (s / s') * (m * 2 ^ e / (m' * 2 ^ e')) := by
    rw [sign_div, mul_div_mul_comm]
  have habs : |sign (s / s')| = 1 := by cases s / s' <;> norm_num [sign]
  rw [hvalue, abs_mul, habs, Rat.one_mul, abs_of_pos hpos] at h
  have he : -1000 ≤ e - e' := by
    have hsize : (2 : ℚ) ^ (-1000 : Int) < 2 ^ (53 + e - (52 + e')) := calc
      2 ^ (-1000 : Int) ≤ (m : ℚ) * 2 ^ e / (m' * 2 ^ e') := h.1
      _ ≤ (m : ℚ) * 2 ^ e / 2 ^ (52 + e') :=
        div_le_div_of_nonneg_left ((two_zpow_pos _).trans_le hl).le (two_zpow_pos _) hl'
      _ < 2 ^ (53 + e) / 2 ^ (52 + e') := div_lt_div_of_pos_right hu (two_zpow_pos _)
      _ = 2 ^ (53 + e - (52 + e')) := (zpow_sub₀ two_ne_zero _ _).symm
    have := (zpow_lt_zpow_iff_right₀ one_lt_two).mp hsize
    omega
  have hround : x / y = .ofModel (Float.Model.pack (roundWithAccuracy Format.binary64 (s / s') (m * 2 ^ 53 / m')
      (e - e' - 53) (accuracyOfFraction (m * 2 ^ 53 % m') m'))) := by
    show Float.ofModel (Float.Model.pack (UnpackedFloat.div _ x.toModel.unpack y.toModel.unpack)) = _
    rw [hx, hy, div_finite_eq hm hk hm' hk' he]
  rw [hround, hvalue, ← quotient_value]
  rw [← quotient_value] at h
  exact near_round (represents_fraction _ hm') (le_mantissa hm hk hm' hk') h

/-- Three relative errors of a quotient: of the two numbers and of its rounding. -/
theorem abs_quotient_error_le {α β γ u : ℚ} (hα : |α| ≤ u) (hβ : |β| ≤ u) (hγ : |γ| ≤ u) (hu : u ≤ 1 / 5) :
    |(1 + α) / (1 + β) * (1 + γ) - 1| ≤ 4 * u := by
  obtain ⟨hαl, hαu⟩ := abs_le.mp hα
  obtain ⟨hβl, hβu⟩ := abs_le.mp hβ
  obtain ⟨hγl, hγu⟩ := abs_le.mp hγ
  have hu0 : 0 ≤ u := (abs_nonneg α).trans hα
  have hβ0 : 0 < 1 + β := by linarith
  have hαγ : |α * γ| ≤ u * (1 / 5) := by
    rw [abs_mul]
    exact mul_le_mul hα (hγ.trans hu) (abs_nonneg γ) hu0
  obtain ⟨hl, hu'⟩ := abs_le.mp hαγ
  have hβu' : u * (4 / 5) ≤ u * (1 + β) := mul_le_mul_of_nonneg_left (by linarith) hu0
  have hsum : (1 + α) / (1 + β) * (1 + γ) - 1 = (α + γ + α * γ - β) / (1 + β) := by
    field_simp
    ring
  rw [hsum, abs_div, abs_of_pos hβ0, div_le_iff₀ hβ0, abs_le]
  constructor <;> linarith

/-- The quotient of two numbers that are known but for the error of a rounding. -/
theorem near_div {x y : Float} {v w : ℚ} (hx : Near x v roundoff) (hy : Near y w roundoff)
    (hl : 2 ^ (-127 : Int) ≤ |v / w|) (hu : |v / w| ≤ 2 ^ (127 : Int)) : Near (x / y) (v / w) (4 * roundoff) := by
  obtain ⟨α, hα, hx⟩ := hx
  obtain ⟨β, hβ, hy⟩ := hy
  have hsmall : roundoff ≤ 1 / 5 := by norm_num [roundoff]
  obtain ⟨hαl, hαu⟩ := abs_le.mp (hα.trans hsmall)
  obtain ⟨hβl, hβu⟩ := abs_le.mp (hβ.trans hsmall)
  have hratio : v * (1 + α) / (w * (1 + β)) = v / w * ((1 + α) / (1 + β)) := mul_div_mul_comm _ _ _ _
  have hm : Moderate |v * (1 + α) / (w * (1 + β))| := by
    have hβ0 : 0 < 1 + β := by linarith
    have hlow : 1 / 2 ≤ (1 + α) / (1 + β) := by
      rw [le_div_iff₀ hβ0]
      linarith
    have hhigh : (1 + α) / (1 + β) ≤ 2 := by
      rw [div_le_iff₀ hβ0]
      linarith
    rw [hratio, abs_mul, abs_of_pos (show 0 < (1 + α) / (1 + β) by linarith)]
    refine moderate_of_le ?_ ?_
    · calc (2 : ℚ) ^ (-128 : Int) = 2 ^ (-127 : Int) * (1 / 2) := by norm_num
        _ ≤ |v / w| * ((1 + α) / (1 + β)) := mul_le_mul hl hlow (by norm_num) (abs_nonneg _)
    · calc |v / w| * ((1 + α) / (1 + β)) ≤ 2 ^ (127 : Int) * 2 :=
            mul_le_mul hu hhigh (by linarith) (two_zpow_pos _).le
        _ = 2 ^ (128 : Int) := by norm_num
  obtain ⟨γ, hγ, hreads⟩ := near_quotient hx hy hm
  refine ⟨(1 + α) / (1 + β) * (1 + γ) - 1, abs_quotient_error_le hα hβ hγ hsmall, ?_⟩
  rw [add_sub_cancel, ← mul_assoc, ← hratio]
  exact hreads

end Double

namespace Number

/-- The double of a fraction other than zero. -/
theorem near_toFloat {n d : Int} (h : (Number.ratio n d).Normal) (hn : n ≠ 0) :
    Double.Near (Number.ratio n d).toFloat (n / d) (4 * Double.roundoff) := by
  obtain ⟨hd, -, hnr, hdr⟩ := h
  have hnum : (1 : ℚ) ≤ |(n : ℚ)| ∧ |(n : ℚ)| ≤ 2 ^ 127 := by
    rw [← Int.cast_abs]
    simp only [Int128.InRange, Int128.least, Int128.greatest] at hnr
    exact ⟨by exact_mod_cast Int.one_le_abs hn, by exact_mod_cast (abs_le.mpr ⟨by omega, by omega⟩ : |n| ≤ 2 ^ 127)⟩
  have hden : (1 : ℚ) ≤ d ∧ (d : ℚ) ≤ 2 ^ 127 := by
    simp only [Int128.InRange, Int128.least, Int128.greatest] at hdr
    exact ⟨by exact_mod_cast hd, by exact_mod_cast (by omega : d ≤ 2 ^ 127)⟩
  have hd' : (0 : ℚ) < d := by linarith
  have habs : |(n : ℚ) / d| = |(n : ℚ)| / d := by rw [abs_div, abs_of_pos hd']
  refine Double.near_div (Double.near_ofInt hn hnr) (Double.near_ofInt hd.ne' hdr) ?_ ?_
  · rw [habs, zpow_neg, ← one_div]
    exact div_le_div₀ (by linarith) hnum.1 hd' (by exact_mod_cast hden.2)
  · rw [habs]
    exact (div_le_self (abs_nonneg _) hden.1).trans (by exact_mod_cast hnum.2)

end Number

end Formula
