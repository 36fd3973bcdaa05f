import Formula.Proofs.Number.Quotient
import Formula.Value.Arithmetic

/-!
# The order of fractions

Two fractions are compared by their cross products, or, where one of these does not fit, by their doubles. The first
way is exact (`Number.compare?_of_inRange`). The second one always gives an answer, and it is exact for fractions that
differ by more than a part in `2 ^ 50` (`Number.compare?_of_not_inRange`, `Double.compare_of_near`). A relation between
two fractions has the truth value that goes with this order (`relate_fractions`).
-/

namespace Formula

open Int128 (InRange fit_eq_some_iff fit_eq_none_iff)

/-- Whether the relation holds of two rational numbers. -/
def Relation.Holds : Relation → ℚ → ℚ → Prop
  | eq, x, y => x = y
  | ne, x, y => x ≠ y
  | lt, x, y => x < y
  | le, x, y => x ≤ y
  | gt, x, y => x > y
  | ge, x, y => x ≥ y

theorem Relation.holds_compare (r : Relation) (x y : ℚ) : r.holds (compare x y) = true ↔ r.Holds x y := by
  rcases lt_trichotomy x y with h | rfl | h
  · rw [compare_lt_iff_lt.mpr h]
    cases r <;> simp [holds, Holds, h, h.le, h.ne, h.not_gt]
  · rw [compare_eq_iff_eq.mpr rfl]
    cases r <;> simp [holds, Holds]
  · rw [compare_gt_iff_gt.mpr h]
    cases r <;> simp [holds, Holds, h, h.le, h.ne', h.not_gt]

namespace Double

variable {x y : Float} {v w error : ℚ}

/-- Doubles of 53 bits are ordered as the numbers that they stand for. -/
theorem lt_iff_of_reads (hx : Reads x v) (hy : Reads y w) : x < y ↔ v < w := by
  have hcompare := hx.compare_eq hy
  show (decide (x.toModel.unpack.lt y.toModel.unpack = true) = true) ↔ _
  rw [decide_eq_true_eq, Float.Model.UnpackedFloat.lt, hcompare, beq_iff_eq, Option.some.injEq]
  exact compare_lt_iff_lt

theorem beq_iff_of_reads (hx : Reads x v) (hy : Reads y w) : (x == y) = true ↔ v = w := by
  have hcompare := hx.compare_eq hy
  show (x.toModel.unpack.compare y.toModel.unpack == some .eq) = true ↔ _
  rw [hcompare, beq_iff_eq, Option.some.injEq]
  exact compare_eq_iff_eq

theorem compare_reads (hx : Reads x v) (hy : Reads y w) :
    (if x < y then some .lt else if x == y then some .eq else if y < x then some .gt else none) =
      some (compare v w) := by
  simp only [lt_iff_of_reads hx hy, lt_iff_of_reads hy hx, beq_iff_of_reads hx hy]
  rcases lt_trichotomy v w with h | rfl | h
  · rw [if_pos h, compare_lt_iff_lt.mpr h]
  · rw [if_neg (lt_irrefl v), if_pos rfl, compare_eq_iff_eq.mpr rfl]
  · rw [if_neg h.not_gt, if_neg h.ne', if_pos h, compare_gt_iff_gt.mpr h]

/-- Numbers that differ by more than their errors are in order as the exact ones. -/
theorem compare_of_near {δ ε : ℚ} (hδ : |δ| ≤ error) (hε : |ε| ≤ error) (h : 2 * error * max |v| |w| < |v - w|) :
    compare (v * (1 + δ)) (w * (1 + ε)) = compare v w := by
  have hlt : ∀ {v w δ ε : ℚ}, |δ| ≤ error → |ε| ≤ error → 2 * error * max |v| |w| < |v - w| → v < w →
      v * (1 + δ) < w * (1 + ε) := by
    intro v w δ ε hδ hε h hvw
    have herror : 0 ≤ error := (abs_nonneg δ).trans hδ
    have hv : |v * δ| ≤ error * max |v| |w| := by
      rw [abs_mul, mul_comm]
      exact mul_le_mul hδ (le_max_left ..) (abs_nonneg v) herror
    have hw : |w * ε| ≤ error * max |v| |w| := by
      rw [abs_mul, mul_comm]
      exact mul_le_mul hε (le_max_right ..) (abs_nonneg w) herror
    rw [abs_sub_comm, abs_of_pos (sub_pos.mpr hvw)] at h
    linarith [(abs_le.mp hv).2, (abs_le.mp hw).1]
  rcases lt_trichotomy v w with hvw | rfl | hvw
  · rw [compare_lt_iff_lt.mpr hvw, compare_lt_iff_lt.mpr (hlt hδ hε h hvw)]
  · have herror : 0 ≤ error := (abs_nonneg δ).trans hδ
    rw [sub_self, abs_zero] at h
    exact absurd h (not_lt.mpr (by positivity))
  · rw [max_comm, abs_sub_comm] at h
    rw [compare_gt_iff_gt.mpr hvw, compare_gt_iff_gt.mpr (hlt hε hδ h hvw)]

end Double

namespace Number

variable {n d n' d' : Int}

/-- Two fractions whose cross products fit. -/
theorem compare?_of_inRange (hd : 0 < d) (hd' : 0 < d') (h : InRange (n * d') ∧ InRange (n' * d)) :
    (Number.ratio n d).compare? (.ratio n' d') = some (compare (n / d : ℚ) (n' / d')) := by
  have hdq : (0 : ℚ) < d := by exact_mod_cast hd
  have hdq' : (0 : ℚ) < d' := by exact_mod_cast hd'
  have hcross : compare (n * d') (n' * d) = compare (n / d : ℚ) (n' / d') := by
    refine Double.compare_congr ?_ ?_
    · rw [div_lt_div_iff₀ hdq hdq']
      exact_mod_cast Iff.rfl
    · rw [div_lt_div_iff₀ hdq' hdq]
      exact_mod_cast Iff.rfl
  unfold compare?
  dsimp only
  rw [Int128.mul?, Int128.mul?, fit_eq_some_iff.mpr ⟨h.1, rfl⟩, fit_eq_some_iff.mpr ⟨h.2, rfl⟩, ← hcross]
  rfl

/-- Two fractions with a cross product that does not fit: their doubles decide. -/
theorem compare?_of_not_inRange (hr : ¬ (InRange (n * d') ∧ InRange (n' * d))) {v v' : ℚ}
    (hv : Double.Reads (Number.ratio n d).toFloat v) (hv' : Double.Reads (Number.ratio n' d').toFloat v') :
    (Number.ratio n d).compare? (.ratio n' d') = some (compare v v') := by
  rw [← Double.compare_reads hv hv']
  unfold compare?
  dsimp only
  rw [Int128.mul?, Int128.mul?]
  by_cases h : InRange (n * d')
  · rw [fit_eq_some_iff.mpr ⟨h, rfl⟩, fit_eq_none_iff.mpr fun h' => hr ⟨h, h'⟩]
    rfl
  · rw [fit_eq_none_iff.mpr h]
    rfl

/-- Zero has cross products that fit. -/
theorem ne_zero_of_not_inRange (h : (Number.ratio n d).Normal) (h' : (Number.ratio n' d').Normal)
    (hr : ¬ (InRange (n * d') ∧ InRange (n' * d))) : n ≠ 0 ∧ n' ≠ 0 := by
  have hone : ∀ {d : Int}, (Number.ratio 0 d).Normal → d = 1 := by
    rintro d ⟨hd, hg, -, -⟩
    rw [Int.gcd_zero_left] at hg
    omega
  have hzero : InRange 0 := by decide
  constructor
  · rintro rfl
    rw [hone h, Int.zero_mul, Int.mul_one] at hr
    exact hr ⟨hzero, h'.2.2.1⟩
  · rintro rfl
    rw [hone h', Int.zero_mul, Int.mul_one] at hr
    exact hr ⟨h.2.2.1, hzero⟩

end Number

open Number in
/-- Two fractions are always in an order, the opposite one when they change places, and equal when they are the same.
Where a cross product does not fit, it is the order of the quotients in doubles. It is the exact order if the cross
products fit or the fractions differ by more than a part in `2 ^ 50`. A relation between them has the truth value that
goes with the order: the true one, where the order is exact. -/
theorem relate_fractions {n d n' d' : Int} (h : (Number.ratio n d).Normal) (h' : (Number.ratio n' d').Normal) :
    let a := Number.ratio n d
    let b := Number.ratio n' d'
    let x : ℚ := n / d
    let y : ℚ := n' / d'
    let p := Float.ofInt n / Float.ofInt d
    let q := Float.ofInt n' / Float.ofInt d'
    ∃ o, a.compare? b = some o ∧ b.compare? a = some o.swap ∧ (x = y → o = .eq) ∧
      (∀ r, Value.relate r (.number a) (.number b) = .bool (r.holds o)) ∧
      (¬ (InRange (n * d') ∧ InRange (n' * d)) →
        (o = .lt ↔ p < q) ∧ (o = .eq ↔ (p == q) = true) ∧ (o = .gt ↔ q < p)) ∧
      (InRange (n * d') ∧ InRange (n' * d) ∨ 2 ^ (-50 : Int) * max |x| |y| < |x - y| →
        o = compare x y ∧ ∀ r : Relation, r.holds o = true ↔ r.Holds x y) := by
  intro a b x y p q
  have hrelate : ∀ {o}, a.compare? b = some o →
      ∀ r, Value.relate r (.number a) (.number b) = .bool (r.holds o) := by
    intro o ho r
    have horder : Value.order? r (.number a) (.number b) = some o := ho
    rw [Value.relate, horder]
  by_cases hr : InRange (n * d') ∧ InRange (n' * d)
  · have hab := compare?_of_inRange h.1 h'.1 hr
    refine ⟨compare x y, hab, ?_, fun hxy => compare_eq_iff_eq.mpr hxy, hrelate hab,
      fun hnot => absurd hr hnot, fun _ => ⟨rfl, fun r => ?_⟩⟩
    · rw [← Std.OrientedOrd.eq_swap]
      exact compare?_of_inRange h'.1 h.1 hr.symm
    · exact r.holds_compare x y
  · obtain ⟨hn, hn'⟩ := ne_zero_of_not_inRange h h' hr
    obtain ⟨δ, hδ, hreads⟩ := near_toFloat h hn
    obtain ⟨ε, hε, hreads'⟩ := near_toFloat h' hn'
    have hab := compare?_of_not_inRange hr hreads hreads'
    refine ⟨_, hab, ?_, fun hxy => ?_, hrelate hab, fun _ => ⟨?_, ?_, ?_⟩, fun hfar => ?_⟩
    · rw [← Std.OrientedOrd.eq_swap]
      exact compare?_of_not_inRange (fun h => hr h.symm) hreads' hreads
    · obtain ⟨rfl, rfl⟩ := Rat.div_int_inj h.1 h'.1 h.2.1 h'.2.1 hxy
      have hsame := compare?_of_not_inRange hr hreads hreads
      rw [compare_eq_iff_eq.mpr rfl] at hsame
      exact Option.some.inj (hab.symm.trans hsame)
    · exact compare_lt_iff_lt.trans (Double.lt_iff_of_reads hreads hreads').symm
    · exact compare_eq_iff_eq.trans (Double.beq_iff_of_reads hreads hreads').symm
    · exact compare_gt_iff_gt.trans (Double.lt_iff_of_reads hreads' hreads).symm
    · have hgap : 2 * (4 * Double.roundoff) * max |x| |y| < |x - y| := by
        refine lt_of_eq_of_lt ?_ (hfar.resolve_left hr)
        norm_num [Double.roundoff]
      rw [Double.compare_of_near hδ hε hgap]
      exact ⟨rfl, fun r => r.holds_compare x y⟩

/-- A half and a third of the greatest integer of the range: the cross products do not fit. -/
theorem relate_half_third :
    let n := Int128.greatest
    (Number.ratio n 2).Normal ∧ (Number.ratio n 3).Normal ∧ ¬ InRange (n * 3) ∧
      2 ^ (-50 : Int) * max |(n / (2 : Int) : ℚ)| |(n / (3 : Int) : ℚ)| < |(n / (2 : Int) : ℚ) - n / (3 : Int)| ∧
      Value.relate .gt (.number (.ratio n 2)) (.number (.ratio n 3)) = .bool true := by
  intro n
  have ha : (Number.ratio n 2).Normal := ⟨by decide, by decide, by decide, by decide⟩
  have hb : (Number.ratio n 3).Normal := ⟨by decide, by decide, by decide, by decide⟩
  have hgap : 2 ^ (-50 : Int) * max |(n / (2 : Int) : ℚ)| |(n / (3 : Int) : ℚ)| <
      |(n / (2 : Int) : ℚ) - n / (3 : Int)| := by
    norm_num [n, Int128.greatest]
  refine ⟨ha, hb, by decide, hgap, ?_⟩
  obtain ⟨o, -, -, -, hrelate, -, hexact⟩ := relate_fractions ha hb
  have hgt : Relation.Holds .gt (n / (2 : Int) : ℚ) (n / (3 : Int)) := by
    norm_num [Relation.Holds, n, Int128.greatest]
  rw [hrelate, ((hexact (.inr hgap)).2 .gt).mpr hgt]

/-- Two different fractions that are compared as equal: the halves of the two greatest odd integers of the range. -/
theorem compare?_halves :
    let n := Int128.greatest
    let a := Number.ratio n 2
    let b := Number.ratio (n - 2) 2
    a.Normal ∧ b.Normal ∧ (n / (2 : Int) : ℚ) ≠ (n - 2 : Int) / (2 : Int) ∧
      a.compare? b = some .eq ∧ Value.relate .eq (.number a) (.number b) = .bool true := by
  intro n a b
  have hcompare : a.compare? b = some .eq := by decide +kernel
  have horder : Value.order? .eq (.number a) (.number b) = some .eq := hcompare
  refine ⟨⟨by decide, by decide, by decide, by decide⟩, ⟨by decide, by decide, by decide, by decide⟩, ?_, hcompare, ?_⟩
  · norm_num [n, Int128.greatest]
  · rw [Value.relate, horder]
    rfl

end Formula
