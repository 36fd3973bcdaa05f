import Formula.Proofs.Number.Word

/-!
# When there is a fraction

`Number.ratio?` gives the fraction of two integers in lowest terms whenever both of its parts fit and the greatest
common divisor does (`ratio?_eq`). Of integers in the range the divisor leaves it in two cases only, where it is
`2 ^ 127`: both integers are the least one, or the numerator is zero and the denominator is the least one
(`gcd_inRange_iff`). On machine integers nothing else can go wrong (`Word.ratio_lowest`).
-/

namespace Formula

open Int128 (InRange fit fit_eq_some_iff fit_eq_none_iff)

namespace Number

/-- What divides two integers of the range lies in the range, unless it is `2 ^ 127`. -/
theorem gcd_inRange_iff {n d : Int} (hn : InRange n) (hd : InRange d) (hne : d ≠ 0) :
    InRange (Int.gcd n d) ↔ ¬ (d = Int128.least ∧ (n = 0 ∨ n = Int128.least)) := by
  have hpos : 0 < Int.gcd n d := Int.gcd_pos_of_ne_zero_right n hne
  have hle : Int.gcd n d ≤ d.natAbs := Int.gcd_le_natAbs_right n hne
  have hdvd : (Int.gcd n d : Int) ∣ n := Int.gcd_dvd_left ..
  simp only [InRange, Int128.least, Int128.greatest] at hn hd ⊢
  constructor
  · rintro ⟨-, hfits⟩ ⟨rfl, rfl | rfl⟩
    · exact absurd hfits (by decide)
    · exact absurd hfits (by decide)
  · intro hc
    refine ⟨by omega, ?_⟩
    by_contra hout
    -- the divisor is the denominator but for the sign, and the numerator is a multiple of it
    have hd' : d = -170141183460469231731687303715884105728 := by omega
    have hg : (Int.gcd n d : Int) = 170141183460469231731687303715884105728 := by omega
    rw [hg] at hdvd
    obtain ⟨c, hc'⟩ := hdvd
    exact hc ⟨hd', by omega⟩

/-- A rational number has one fraction in lowest terms with a positive denominator. -/
theorem lowest_iff {p q : Int} {x : ℚ} :
    0 < q ∧ Int.gcd p q = 1 ∧ (p : ℚ) / q = x ↔ p = x.num ∧ q = x.den := by
  constructor
  · rintro ⟨hq, hco, rfl⟩
    exact ⟨(Rat.num_div_eq_of_coprime hq hco).symm, (Rat.den_div_eq_of_coprime hq hco).symm⟩
  · rintro ⟨rfl, rfl⟩
    exact ⟨by exact_mod_cast x.den_pos, x.reduced, (eq_div x).symm⟩

/-- The fraction of two integers of the range in lowest terms, as far as it and the greatest common divisor fit. -/
theorem ratio?_eq {n d : Int} (hn : InRange n) (hd : InRange d) :
    ratio? n d =
      if d ≠ 0 ∧ InRange (Int.gcd n d) ∧ InRange (n / d : ℚ).num ∧ InRange (n / d : ℚ).den
      then some (.ratio (n / d : ℚ).num (n / d : ℚ).den) else none := by
  unfold ratio?
  by_cases hne : d = 0
  · rw [if_pos hne, if_neg fun h => h.1 hne]
  rw [if_neg hne]
  by_cases hg : InRange (Int.gcd n d)
  · rw [fit_eq_some_iff.mpr ⟨hg, rfl⟩]
    obtain ⟨hd0, hco, hval⟩ := lowest_terms (n := n) hne
    have hpos : 0 < (Int.gcd n d : Int) := by exact_mod_cast Int.gcd_pos_of_ne_zero_right n hne
    have hn' := hn.ediv hpos
    have hd' := hd.ediv hpos
    rw [hval]
    dsimp only [Option.bind_eq_bind, Option.bind_some]
    generalize n / (Int.gcd n d : Int) = p at *
    generalize d / (Int.gcd n d : Int) = q at *
    by_cases hneg : q < 0
    · have hco : Int.gcd (-p) (-q) = 1 := by rwa [Int.neg_gcd, Int.gcd_neg]
      have hx : (p / q : ℚ) = ((-p : Int) : ℚ) / (-q : Int) := by
        push_cast
        rw [neg_div_neg_eq]
      rw [hx, Rat.num_div_eq_of_coprime (by omega) hco, Rat.den_div_eq_of_coprime (by omega) hco, if_pos hneg]
      simp only [Int128.neg?, fit]
      by_cases hp : InRange (-p) <;> by_cases hq : InRange (-q) <;> simp [hne, hg, hp, hq]
    · have hpos : 0 < q := by omega
      rw [Rat.num_div_eq_of_coprime hpos hco, Rat.den_div_eq_of_coprime hpos hco, if_neg hneg,
        if_pos ⟨hne, hg, hn', hd'⟩]
      rfl
  · rw [fit_eq_none_iff.mpr hg, if_neg fun h => hg h.2.1]
    rfl

/-- A fraction with a positive denominator always fits in lowest terms. -/
theorem ratio?_of_pos {n d : Int} (hn : InRange n) (hd : InRange d) (hpos : 0 < d) :
    ratio? n d = some (.ratio (n / d : ℚ).num (n / d : ℚ).den) := by
  have hleast : d ≠ Int128.least := by
    rintro rfl
    exact absurd hpos (by decide)
  have hg : InRange (Int.gcd n d) := (gcd_inRange_iff hn hd hpos.ne').mpr fun h => hleast h.1
  have hgpos : 0 < (Int.gcd n d : Int) := by exact_mod_cast Int.gcd_pos_of_ne_zero_right n hpos.ne'
  have hparts : InRange (n / d : ℚ).num ∧ InRange (n / d : ℚ).den := by
    obtain ⟨-, hco, hval⟩ := lowest_terms (n := n) hpos.ne'
    have hden : 0 < d / (Int.gcd n d : Int) := Int.ediv_pos_of_pos_of_dvd hpos hgpos.le (Int.gcd_dvd_right ..)
    rw [hval, Rat.num_div_eq_of_coprime hden hco, Rat.den_div_eq_of_coprime hden hco]
    exact ⟨hn.ediv hgpos, hd.ediv hgpos⟩
  rw [ratio?_eq hn hd, if_pos ⟨hpos.ne', hg, hparts⟩]

end Number

namespace Word

/-- Building a fraction fails only when it must, or when the greatest common divisor leaves the range. -/
theorem ratio_lowest (n d : Word) :
    let x : ℚ := n.toInt / d.toInt
    -- what there is, and when
    (∀ r, Number.ratio? n.toInt d.toInt = some r ↔
      d ≠ 0 ∧ ¬ (d = BitVec.intMin 128 ∧ (n = 0 ∨ n = BitVec.intMin 128)) ∧
        ∃ p q : Int, r = .ratio p q ∧ 0 < q ∧ Int.gcd p q = 1 ∧ (p : ℚ) / q = x ∧ InRange p ∧ InRange q) ∧
    -- the machine has the same result and stops with no fault
    Agrees Fraction.toNumber (ratio n d) (Number.ratio? n.toInt d.toInt) := by
  intro x
  refine ⟨fun r => ?_, agrees_ratio n d⟩
  have hn := inRange_toInt n
  have hd := inRange_toInt d
  have hleast : ∀ a : Word, a.toInt = Int128.least ↔ a = BitVec.intMin 128 := fun a =>
    BitVec.toInt_inj (y := BitVec.intMin 128)
  rw [Number.ratio?_eq hn hd, Option.ite_none_right_eq_some]
  simp only [Option.some.injEq, ne_eq, toInt_eq_zero_iff]
  constructor
  · rintro ⟨⟨hne, hg, hnum, hden⟩, rfl⟩
    rw [Number.gcd_inRange_iff hn hd (mt toInt_eq_zero_iff.mp hne), hleast, hleast, toInt_eq_zero_iff] at hg
    obtain ⟨hpos, hco, hval⟩ := Number.lowest_iff.mpr ⟨rfl, rfl⟩
    exact ⟨hne, hg, _, _, rfl, hpos, hco, hval, hnum, hden⟩
  · rintro ⟨hne, hg, p, q, rfl, hpos, hco, hval, hp, hq⟩
    obtain ⟨rfl, rfl⟩ := Number.lowest_iff.mp ⟨hpos, hco, hval⟩
    refine ⟨⟨hne, ?_, hp, hq⟩, rfl⟩
    rwa [Number.gcd_inRange_iff hn hd (mt toInt_eq_zero_iff.mp hne), hleast, hleast, toInt_eq_zero_iff]

/-- The fraction one, as the quotient of the least integer by itself: it fits, but its greatest common divisor does
not. The same is true of zero. -/
theorem ratio_least :
    Number.ratio? Int128.least Int128.least = none ∧ Number.ratio? 0 Int128.least = none ∧
      (0 < (1 : Int) ∧ Int.gcd 1 1 = 1 ∧ ((1 : Int) : ℚ) / (1 : Int) = (Int128.least : ℚ) / Int128.least ∧ InRange 1) ∧
      (Int.gcd 0 1 = 1 ∧ ((0 : Int) : ℚ) / (1 : Int) = ((0 : Int) : ℚ) / Int128.least ∧ InRange 0) := by
  refine ⟨by decide +kernel, by decide +kernel, ⟨by decide, by decide, by norm_num [Int128.least], by decide⟩,
    by decide, by norm_num, by decide⟩

end Word

end Formula
