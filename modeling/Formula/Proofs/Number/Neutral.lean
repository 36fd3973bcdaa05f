import Formula.Proofs.Number.Normal

/-!
# Zero and one are neutral

Zero and one leave a normal number as it is, the double zero apart: a sum with the fraction zero takes a negative zero
to the positive one. For fractions this is `ratio?` on lowest terms. For doubles it is about their bits: packing undoes
unpacking (`pack_unpack`), and rounding takes back the 52 places by which a product with one is shifted
(`round_canonical`).
-/

namespace Formula

open Float.Model Float.Model.UnpackedFloat

/-! ## Doubles -/

namespace Double

theorem unpackSign_eq (b : BitVec Format.binary64.numBits) :
    unpackSign b = BitVec.cast (by rfl) (BitVec.extractLsb 63 63 b) := rfl

theorem packComponents_unpack (b : BitVec Format.binary64.numBits) :
    packComponents Format.binary64 (Sign.ofBitVec (unpackSign b)) (unpackExponent b) (unpackMantissa b) = b := by
  have hsign : ∀ s : BitVec 1, (Sign.ofBitVec s).toBitVec = s := by decide
  rw [packComponents, hsign]
  refine BitVec.eq_of_getLsbD_eq fun i hi => ?_
  change i < 64 at hi
  simp only [unpackSign_eq, unpackExponent, unpackMantissa, BitVec.getLsbD_append, BitVec.getLsbD_cast,
    BitVec.getLsbD_extractLsb]
  by_cases h52 : i < 52
  · simp [h52]
  · by_cases h63 : i < 63
    · have h11 : i - 52 < 11 := by omega
      simp [h52, h11, Nat.add_sub_of_le (Nat.not_lt.mp h52)]
    · obtain rfl : i = 63 := by omega
      rfl

theorem pack_normal {s : Sign} {m : Nat} {e : Int} (h : 0 < m) (hm : m.log2 = 52) (he : e < 972) :
    UnpackedFloat.pack Format.binary64 (.finite s m e h) =
      packComponents Format.binary64 s (BitVec.ofNat 11 (e + 1075).toNat) (BitVec.ofNat 52 m) := by
  have hb : (e + Format.binary64.exponentBias + Format.binary64.mantissaBitsWithoutImplicit).toNat =
      (e + 1075).toNat := by
    show (e + 1023 + 52).toNat = _
    omega
  unfold UnpackedFloat.pack
  rw [hb, if_neg, if_pos]
  · rw [hm]
    rfl
  · show ¬ 2048 ≤ _
    omega

theorem pack_subnormal {s : Sign} {m : Nat} {e : Int} (h : 0 < m) (hm : m.log2 < 52) (he : e = -1074) :
    UnpackedFloat.pack Format.binary64 (.finite s m e h) =
      packComponents Format.binary64 s 0 (BitVec.ofNat 52 m) := by
  subst he
  unfold UnpackedFloat.pack
  rw [if_neg, if_neg]
  · rfl
  · show ¬ m.log2 + 1 = 53
    omega
  · decide

theorem toNat_implicit (m : BitVec 52) : (1#1 ++ m).toNat = 2 ^ 52 + m.toNat := by
  rw [BitVec.toNat_append, Nat.shiftLeft_eq, Nat.mul_comm, ← Nat.two_pow_add_eq_or_of_lt m.isLt]
  rfl

theorem log2_implicit (m : BitVec 52) : (1#1 ++ m).toNat.log2 = 52 := by
  have := m.isLt
  rw [Nat.log2_eq_iff (by rw [toNat_implicit]; omega), toNat_implicit]
  omega

theorem log2_lt_of_ne {m : BitVec 52} (h : m ≠ 0) : m.toNat.log2 < 52 :=
  (Nat.log2_lt fun h0 => h (BitVec.eq_of_toNat_eq h0)).mpr m.isLt

theorem bias_eq (n : Nat) :
    (n : Int) - (Format.binary64.exponentBias + Format.binary64.mantissaBitsWithoutImplicit) = n - 1075 := by
  show (n : Int) - ((1023 : Int) + 52) = _
  omega

/-- What the bits of a double are read as. -/
theorem unpack_cases (b : BitVec Format.binary64.numBits) :
    let sign := Sign.ofBitVec (unpackSign b)
    let unpacked := UnpackedFloat.unpack Format.binary64 b
    (unpackExponent b = -1 ∧ unpackMantissa b = 0 ∧ unpacked = .infinity sign) ∨
    (unpackExponent b = -1 ∧ unpackMantissa b ≠ 0 ∧ unpacked = .notANumber) ∨
    (unpackExponent b = 0 ∧ unpackMantissa b = 0 ∧ unpacked = .zero sign) ∨
    (unpackExponent b = 0 ∧ unpackMantissa b ≠ 0 ∧ ∃ h, unpacked = .finite sign (unpackMantissa b).toNat (-1074) h) ∨
    (unpackExponent b ≠ -1 ∧ unpackExponent b ≠ 0 ∧
      ∃ h, unpacked = .finite sign (1#1 ++ unpackMantissa b).toNat ((unpackExponent b).toNat - 1075) h) := by
  intro sign unpacked
  by_cases hinf : unpackExponent b = -1
  · by_cases hm : unpackMantissa b = 0
    · exact .inl ⟨hinf, hm, (if_pos hinf).trans (if_pos hm)⟩
    · exact .inr (.inl ⟨hinf, hm, (if_pos hinf).trans (if_neg hm)⟩)
  · by_cases he : unpackExponent b = 0
    · by_cases hm : unpackMantissa b = 0
      · exact .inr (.inr (.inl ⟨he, hm, (if_neg hinf).trans ((if_pos he).trans (dif_pos hm))⟩))
      · have hexponent : ((unpackExponent b).toNat : Int) -
            (Format.binary64.exponentBias + Format.binary64.mantissaBitsWithoutImplicit) + 1 = -1074 := by
          rw [he]
          rfl
        refine .inr (.inr (.inr (.inl ⟨he, hm, ?_⟩)))
        rw [← hexponent]
        exact ⟨_, (if_neg hinf).trans ((if_pos he).trans (dif_neg hm))⟩
    · refine .inr (.inr (.inr (.inr ⟨hinf, he, ?_⟩)))
      rw [← bias_eq]
      exact ⟨_, (if_neg hinf).trans (if_neg he)⟩

theorem pack_unpack {b : BitVec Format.binary64.numBits} (hv : Format.binary64.Valid b) :
    UnpackedFloat.pack Format.binary64 (UnpackedFloat.unpack Format.binary64 b) = b := by
  have hb := packComponents_unpack b
  obtain ⟨he, hm, hu⟩ | ⟨he, hm, hu⟩ | ⟨he, hm, hu⟩ | ⟨he, hm, _, hu⟩ | ⟨hinf, -, _, hu⟩ := unpack_cases b
  · rw [hu]
    rw [he, hm] at hb
    exact hb
  · rw [hu]
    exact (hv.eq_packedNaN he hm).symm
  · rw [hu]
    rw [he, hm] at hb
    exact hb
  · rw [hu, pack_subnormal _ (log2_lt_of_ne hm) rfl, BitVec.ofNat_toNat, BitVec.setWidth_eq]
    rw [he] at hb
    exact hb
  · have hlt : (unpackExponent b).toNat < 2048 := (unpackExponent b).isLt
    have hne : (unpackExponent b).toNat ≠ 2047 := fun h => hinf (BitVec.eq_of_toNat_eq h)
    rw [hu, pack_normal _ (log2_implicit _) (by omega), Int.sub_add_cancel, Int.toNat_natCast, toNat_implicit]
    have hmantissa : BitVec.ofNat 52 (2 ^ 52 + (unpackMantissa b).toNat) = unpackMantissa b := by
      refine BitVec.eq_of_toNat_eq ?_
      rw [BitVec.toNat_ofNat, Nat.add_mod_left, Nat.mod_eq_of_lt (unpackMantissa b).isLt]
    have hexponent : BitVec.ofNat 11 (unpackExponent b).toNat = unpackExponent b := by
      rw [BitVec.ofNat_toNat, BitVec.setWidth_eq]
    rw [hmantissa, hexponent]
    exact hb

/-- The finite doubles have 53 bits, or the least exponent. -/
theorem canonical_of_unpack {b : BitVec Format.binary64.numBits} {s : Sign} {m : Nat} {e : Int} {h : 0 < m}
    (hb : UnpackedFloat.unpack Format.binary64 b = .finite s m e h) :
    m.log2 = 52 ∧ -1074 ≤ e ∨ m.log2 < 52 ∧ e = -1074 := by
  obtain ⟨-, -, hu⟩ | ⟨-, -, hu⟩ | ⟨-, -, hu⟩ | ⟨-, hm, _, hu⟩ | ⟨-, he, _, hu⟩ := unpack_cases b <;>
    have hu := hu.symm.trans hb
  · cases hu
  · cases hu
  · cases hu
  · obtain ⟨-, rfl, rfl⟩ := UnpackedFloat.finite.inj hu
    exact .inr ⟨log2_lt_of_ne hm, rfl⟩
  · obtain ⟨-, rfl, rfl⟩ := UnpackedFloat.finite.inj hu
    have hne : (unpackExponent b).toNat ≠ 0 := fun h => he (BitVec.eq_of_toNat_eq h)
    exact .inl ⟨log2_implicit _, by omega⟩

theorem shiftRight_mul (m k : Nat) :
    (⟨2 ^ k * m, false, false⟩ : ExtendedMantissa) >>> k = ⟨m, false, false⟩ := by
  show k.repeat ExtendedMantissa.shiftRightOne ⟨2 ^ k * m, false, false⟩ = _
  induction k generalizing m with
  | zero => simp [Nat.repeat]
  | succ k ih =>
    rw [Nat.repeat, pow_succ, Nat.mul_assoc, ih]
    simp [ExtendedMantissa.shiftRightOne]

/-- A canonical double times one, rounded, is itself. -/
theorem round_canonical {s : Sign} {m : Nat} {e : Int} (h : 0 < m)
    (hcan : m.log2 = 52 ∧ -1074 ≤ e ∨ m.log2 < 52 ∧ e = -1074) :
    roundWithAccuracy Format.binary64 s (2 ^ 52 * m) (-52 + e) .exact = .finite s m e h := by
  have hlog : (2 ^ 52 * m).log2 = 52 + m.log2 := by
    rw [Nat.log2_eq_iff (by omega), Nat.pow_add, Nat.add_assoc, Nat.pow_add]
    have hle := Nat.log2_self_le h.ne'
    have hlt := Nat.lt_log2_self (n := m)
    omega
  have htarget : Format.binary64.targetExponent (totalExponent (2 ^ 52 * m) (-52 + e)) = e := by
    rw [totalExponent, hlog]
    show max (_ - (53 : Int)) (-1074) = e
    omega
  have htarget' : Format.binary64.targetExponent (totalExponent m e) = e := by
    rw [totalExponent]
    show max (_ - (53 : Int)) (-1074) = e
    omega
  have hfirst : shiftToTargetExponent Format.binary64 (2 ^ 52 * m) (-52 + e) .exact = (⟨m, false, false⟩, e) := by
    rw [shiftToTargetExponent, htarget, shiftToExponent]
    have hamount : (e - (-52 + e)).toNat = 52 := by omega
    rw [hamount]
    refine Prod.ext (shiftRight_mul m 52) ?_
    show -52 + e + 52 = e
    omega
  have hsecond : shiftToTargetExponent Format.binary64 m e .exact = (⟨m, false, false⟩, e) := by
    rw [shiftToTargetExponent, htarget', shiftToExponent, Int.sub_self]
    exact Prod.ext rfl (Int.add_zero e)
  have hrounded : (⟨m, false, false⟩ : ExtendedMantissa).roundedMantissa = m := rfl
  unfold roundWithAccuracy
  rw [hfirst]
  dsimp only
  rw [hrounded, hsecond]
  exact dif_neg h.ne'

theorem ofModel_pack_unpack (x : Float) : Float.ofModel (Float.Model.pack x.toModel.unpack) = x := by
  obtain ⟨⟨⟨b⟩, hv⟩⟩ := x
  unfold Float.Model.pack Float.Model.unpack
  congr 3
  exact pack_unpack hv

/-- Zero is neutral in sums with all but zero. -/
theorem zero_add {x : Float} (h : (x == 0) = false) : Float.ofInt 0 / Float.ofInt 1 + x = x := by
  conv_rhs => rw [← ofModel_pack_unpack x]
  show Float.ofModel (Float.Model.pack (UnpackedFloat.add _ (.zero .positive) x.toModel.unpack)) = _
  have hcompare : (x.toModel.unpack.compare (.zero .positive) == some .eq) = false := h
  cases hx : x.toModel.unpack with
  | zero s =>
    rw [hx] at hcompare
    cases hcompare
  | _ => rfl

/-- One is neutral in products. -/
theorem one_mul (x : Float) : Float.ofInt 1 / Float.ofInt 1 * x = x := by
  conv_rhs => rw [← ofModel_pack_unpack x]
  show Float.ofModel (Float.Model.pack (UnpackedFloat.mul _ (.finite .positive (2 ^ 52) (-52) (by decide))
    x.toModel.unpack)) = _
  have hsign : ∀ s : Sign, Sign.positive * s = s := fun s => by cases s <;> rfl
  refine congrArg (fun u => Float.ofModel (Float.Model.pack u)) ?_
  cases hx : x.toModel.unpack with
  | finite s m e hm =>
    show roundWithAccuracy Format.binary64 (Sign.positive * s) (2 ^ 52 * m) (-52 + e) .exact = _
    rw [hsign, round_canonical hm (canonical_of_unpack hx)]
  | zero s => exact congrArg UnpackedFloat.zero (hsign s)
  | infinity s => exact congrArg UnpackedFloat.infinity (hsign s)
  | notANumber => rfl

end Double

/-! ## Numbers -/

namespace Number

variable {c : Number}

theorem ratio?_of_normal {n d : Int} (h : (Number.ratio n d).Normal) : ratio? n d = some (.ratio n d) := by
  obtain ⟨hd, hg, -, -⟩ := h
  have hfit : Int128.fit ((Int.gcd n d : Nat) : Int) = some 1 := by
    rw [hg]
    rfl
  rw [ratio?, if_neg (by omega), hfit]
  simp only [Option.bind_eq_bind, Option.bind_some, Int.ediv_one]
  exact if_neg (by omega)

theorem fit_of_inRange {n : Int} (h : Int128.InRange n) : Int128.fit n = some n := Int128.fit_eq_some_iff.mpr ⟨h, rfl⟩

theorem fit_zero : Int128.fit 0 = some 0 := fit_of_inRange (by decide)

theorem addExact_zero_left {n d : Int} (h : (Number.ratio n d).Normal) :
    addExact zero (.ratio n d) = some (.ratio n d) := by
  simp only [zero, ofInt, addExact, Int128.mul?, Int128.add?, Int.zero_mul, Int.mul_one, Int.one_mul, Int.zero_add,
    fit_zero, fit_of_inRange h.2.2.1, fit_of_inRange h.2.2.2, Option.bind_eq_bind, Option.bind_some]
  exact ratio?_of_normal h

theorem addExact_zero_right {n d : Int} (h : (Number.ratio n d).Normal) :
    addExact (.ratio n d) zero = some (.ratio n d) := by
  simp only [zero, ofInt, addExact, Int128.mul?, Int128.add?, Int.zero_mul, Int.mul_one, Int.add_zero,
    fit_zero, fit_of_inRange h.2.2.1, fit_of_inRange h.2.2.2, Option.bind_eq_bind, Option.bind_some]
  exact ratio?_of_normal h

theorem mulExact_one_left {n d : Int} (h : (Number.ratio n d).Normal) :
    mulExact one (.ratio n d) = some (.ratio n d) := by
  simp only [one, ofInt, mulExact, Int128.mul?, Int.one_mul, fit_of_inRange h.2.2.1, fit_of_inRange h.2.2.2,
    Option.bind_eq_bind, Option.bind_some]
  exact ratio?_of_normal h

theorem mulExact_one_right {n d : Int} (h : (Number.ratio n d).Normal) :
    mulExact (.ratio n d) one = some (.ratio n d) := by
  simp only [one, ofInt, mulExact, Int128.mul?, Int.mul_one, fit_of_inRange h.2.2.1, fit_of_inRange h.2.2.2,
    Option.bind_eq_bind, Option.bind_some]
  exact ratio?_of_normal h

/-- Zero in front of a number that is no zero is neutral. -/
theorem zero_add (hc : c.Normal) (h : c.isZero = false) : zero.add c = c := by
  cases c with
  | ratio n d => rw [Number.add, addExact_zero_left hc, orReal, Option.getD_some]
  | real x => exact congrArg Number.real (Double.zero_add h)

theorem one_mul (hc : c.Normal) : one.mul c = c := by
  cases c with
  | ratio n d => rw [Number.mul, mulExact_one_left hc, orReal, Option.getD_some]
  | real x => exact congrArg Number.real (Double.one_mul x)

end Number

end Formula
