import Formula.Proofs.Number.Exact

/-!
# Arithmetic keeps numbers normal

Every operation on normal numbers gives a normal one: what it computes exactly goes through `ratio?`, which brings
fractions to lowest terms (`normal_of_ratio?`), and all else is a double.
-/

namespace Formula

namespace Int128

/-- What is nearer to zero on the same side is in the range. -/
theorem InRange.of_natAbs_le {n m : Int} (h : InRange n) (hle : m.natAbs ≤ n.natAbs) (hpos : 0 ≤ n → 0 ≤ m)
    (hneg : n < 0 → m ≤ 0) : InRange m := by
  simp only [InRange, least, greatest] at h ⊢
  omega

theorem InRange.ediv {n g : Int} (h : InRange n) (hg : 0 < g) : InRange (n / g) :=
  h.of_natAbs_le (Int.natAbs_ediv_le_natAbs n g) (fun hn => Int.ediv_nonneg hn (Int.le_of_lt hg))
    fun hn => Int.le_of_lt (Int.ediv_neg_of_neg_of_pos hn hg)

theorem InRange.tmod {n : Int} (h : InRange n) (m : Int) : InRange (n.tmod m) := by
  refine h.of_natAbs_le ?_ (Int.tmod_nonneg m) fun hn => ?_
  · rw [Int.natAbs_tmod]
    exact Nat.mod_le _ _
  · rw [← Int.neg_nonneg, ← Int.neg_tmod]
    exact Int.tmod_nonneg m (by omega)

theorem inRange_of_pow? {a v : Int} {k : Nat} (h : pow? a k = some v) : InRange v := by
  unfold pow? at h
  split at h
  · rename_i ha
    obtain rfl := Option.some.inj h
    obtain rfl | rfl | rfl : a = -1 ∨ a = 0 ∨ a = 1 := by omega
    all_goals
      split
      · decide
      · split <;> decide
  · split at h
    · obtain ⟨hv, rfl⟩ := fit_eq_some_iff.mp h
      exact hv
    · cases h

end Int128

namespace Number

open Int128 (InRange fit_eq_some_iff)

/-- A fraction that is brought to lowest terms is normal. -/
theorem normal_of_ratio? {n d : Int} {r : Number} (hn : InRange n) (hd : InRange d) (h : ratio? n d = some r) :
    r.Normal := by
  unfold ratio? at h
  split at h
  · cases h
  rename_i hne
  obtain ⟨hd0, hco, -⟩ := lowest_terms (n := n) hne
  have hpos : 0 < (Int.gcd n d : Int) := by exact_mod_cast Int.gcd_pos_of_ne_zero_right n hne
  obtain ⟨g, hg, h⟩ := Option.bind_eq_some_iff.mp h
  obtain ⟨-, rfl⟩ := fit_eq_some_iff.mp hg
  dsimp only at h
  split at h
  · obtain ⟨n', hn', h⟩ := Option.bind_eq_some_iff.mp h
    obtain ⟨d', hd', h⟩ := Option.bind_eq_some_iff.mp h
    obtain ⟨hnum, rfl⟩ := fit_eq_some_iff.mp hn'
    obtain ⟨hden, rfl⟩ := fit_eq_some_iff.mp hd'
    cases h
    exact ⟨by omega, by rw [Int.neg_gcd, Int.gcd_neg]; exact hco, hnum, hden⟩
  · cases h
    exact ⟨by omega, hco, hn.ediv hpos, hd.ediv hpos⟩

/-- A result is normal if its exact part is. -/
theorem normal_orReal {o : Option Number} (h : ∀ r, o = some r → r.Normal) (x : Float) : (orReal o x).Normal := by
  cases o with
  | none => trivial
  | some r => exact h r rfl

theorem normal_ofInt {n : Int} (h : InRange n) : (ofInt n).Normal :=
  ⟨Int.one_pos, Int.gcd_one_right n, h, by decide⟩

namespace Normal

variable {a b r : Number}

theorem toInt? (h : a.Normal) {n : Int} (hn : a.toInt? = some n) : InRange n := by
  cases a with
  | real => cases hn
  | ratio m d =>
    obtain ⟨-, hm⟩ := Option.ite_none_right_eq_some.mp hn
    cases hm
    exact h.2.2.1

theorem neg (h : a.Normal) : a.neg.Normal := by
  cases a with
  | real => trivial
  | ratio n d =>
    refine normal_orReal (fun r hr => ?_) _
    obtain ⟨m, hm, rfl⟩ := Option.map_eq_some_iff.mp hr
    obtain ⟨hnum, rfl⟩ := fit_eq_some_iff.mp hm
    exact ⟨h.1, by rw [Int.neg_gcd]; exact h.2.1, hnum, h.2.2.2⟩

theorem abs (h : a.Normal) : a.abs.Normal := by
  unfold Number.abs
  split
  · exact h.neg
  · exact h

theorem add : (a b : Number) → (a.add b).Normal
  | .real _, _ | .ratio .., .real _ => trivial
  | .ratio .., .ratio .. => by
    refine normal_orReal (fun r hr => ?_) _
    simp only [addExact, Int128.mul?, Int128.add?, Option.bind_eq_bind, Option.bind_eq_some_iff, fit_eq_some_iff] at hr
    obtain ⟨_, -, _, -, _, ⟨hn, rfl⟩, _, ⟨hd, rfl⟩, hr⟩ := hr
    exact normal_of_ratio? hn hd hr

theorem mul : (a b : Number) → (a.mul b).Normal
  | .real _, _ | .ratio .., .real _ => trivial
  | .ratio .., .ratio .. => by
    refine normal_orReal (fun r hr => ?_) _
    simp only [mulExact, Int128.mul?, Option.bind_eq_bind, Option.bind_eq_some_iff, fit_eq_some_iff] at hr
    obtain ⟨_, ⟨hn, rfl⟩, _, ⟨hd, rfl⟩, hr⟩ := hr
    exact normal_of_ratio? hn hd hr

theorem div? (h : a.div? b = some r) : r.Normal := by
  obtain ⟨-, h⟩ := Option.ite_none_left_eq_some.mp h
  cases h
  match a, b with
  | .real _, _ | .ratio .., .real _ => trivial
  | .ratio .., .ratio .. =>
    refine normal_orReal (fun r hr => ?_) _
    simp only [divExact, Int128.mul?, Option.bind_eq_bind, Option.bind_eq_some_iff, fit_eq_some_iff] at hr
    obtain ⟨_, ⟨hn, rfl⟩, _, ⟨hd, rfl⟩, hr⟩ := hr
    exact normal_of_ratio? hn hd hr

theorem rem? (h : a.rem? b = some r) : r.Normal := by
  obtain ⟨-, h⟩ := Option.ite_none_left_eq_some.mp h
  cases h
  match a, b with
  | .real _, _ | .ratio .., .real _ => trivial
  | .ratio .., .ratio .. =>
    refine normal_orReal (fun r hr => ?_) _
    simp only [remExact, Int128.mul?, Int128.rem?, Int128.add?, Option.bind_eq_bind, Option.bind_eq_some_iff,
      fit_eq_some_iff] at hr
    obtain ⟨_, ⟨hx, rfl⟩, _, ⟨-, rfl⟩, t, ht, hr⟩ := hr
    have ht : InRange t := by
      obtain ⟨-, ht⟩ := Option.ite_none_left_eq_some.mp ht
      obtain ⟨_, -, rfl⟩ := Option.map_eq_some_iff.mp ht
      exact hx.tmod _
    split at hr
    · simp only [Option.bind_eq_some_iff, fit_eq_some_iff] at hr
      obtain ⟨_, ⟨hu, rfl⟩, _, ⟨hd, rfl⟩, hr⟩ := hr
      exact normal_of_ratio? hu hd hr
    · simp only [Option.bind_some, Option.bind_eq_some_iff, fit_eq_some_iff] at hr
      obtain ⟨_, ⟨hd, rfl⟩, hr⟩ := hr
      exact normal_of_ratio? ht hd hr

theorem powReal {x y : Float} (h : powReal x y = some r) : r.Normal := by
  unfold Number.powReal at h
  split at h
  · cases h
  · dsimp only at h
    split at h <;> cases h
    trivial

theorem powExact {e : Int} (h : powExact a e = some r) : r.Normal := by
  cases a with
  | real => cases h
  | ratio n d =>
    simp only [Number.powExact] at h
    split at h
    · cases h
    obtain ⟨pn, hn, h⟩ := Option.bind_eq_some_iff.mp h
    obtain ⟨pd, hd, h⟩ := Option.bind_eq_some_iff.mp h
    have hn := Int128.inRange_of_pow? hn
    have hd := Int128.inRange_of_pow? hd
    split at h
    · exact normal_of_ratio? hd hn h
    · exact normal_of_ratio? hn hd h

theorem pow? (h : a.pow? b = some r) : r.Normal := by
  unfold Number.pow? at h
  split at h
  · rename_i n d k _
    split at h
    · cases h
    · cases he : Number.powExact (.ratio n d) k with
      | none =>
        rw [he] at h
        exact powReal h
      | some v =>
        rw [he] at h
        cases h
        exact powExact he
  · exact powReal h

theorem factorial? (h : a.factorial? = some r) : r.Normal := by
  obtain ⟨n, -, rfl⟩ := Option.map_eq_some_iff.mp h
  cases a with
  | real => trivial
  | ratio =>
    cases hv : factorialExact n with
    | none => trivial
    | some v =>
      refine normal_ofInt (n := v) ?_
      -- the last product fits, or there is none
      unfold factorialExact at hv
      rcases List.eq_nil_or_concat (factors n) with hnil | ⟨ks, k, hks⟩
      · rw [hnil] at hv
        cases hv
        decide
      · rw [hks, List.concat_eq_append, List.foldlM_append] at hv
        obtain ⟨w, -, hv⟩ := Option.bind_eq_some_iff.mp hv
        obtain ⟨x, hx, hv⟩ := Option.bind_eq_some_iff.mp hv
        cases hv
        obtain ⟨hfit, rfl⟩ := fit_eq_some_iff.mp hx
        exact hfit

end Normal

end Number

end Formula
