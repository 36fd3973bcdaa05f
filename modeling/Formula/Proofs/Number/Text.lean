import Formula.Proofs.Number.Quotient
import Formula.Proofs.Token.Numeral

/-!
# The text of numbers

A natural number is written with its digits, and they are read back as the number if it fits, and otherwise as a double
(`Numeral.ofLiteral?_ofNat`). The text of a double is a numeral or a word, with a minus sign in front of it only if the
sign bit is set (`renderFloat_cases`). No double above zero has that bit, and so the negative of a negative number is
written without a sign, also where it does not fit and becomes a double (`Number.Unsigned.neg`).
-/

namespace Formula

open Float.Model Float.Model.UnpackedFloat
open Int128 (InRange)

/-! ## Digits -/

namespace Numeral

/-- A row of digits without a point. -/
def ofDigits (ds : List Char) (hd : ∀ c ∈ ds, Decimal.isDigit c = true) (hne : ds ≠ []) : Numeral :=
  ⟨ds, none, by simpa using hd, by simpa using hne⟩

theorem isDigit_of_mem {n : Nat} {c : Char} (hc : c ∈ Decimal.digitsOf n) : Decimal.isDigit c = true := by
  have hdigit := Nat.isDigit_of_mem_toDigits (by decide) (by decide) hc
  simpa [Char.isDigit, Decimal.isDigit, Char.le_def] using hdigit

/-- The digits of a natural number. -/
def ofNat (n : Nat) : Numeral := ofDigits (Decimal.digitsOf n) (fun _ => isDigit_of_mem) Nat.toDigits_ne_nil

theorem text_ofNat (n : Nat) : (ofNat n).text = (toString n).toList := by
  rw [Nat.toString_eq_ofList_toDigits, String.toList_ofList]
  exact List.append_nil _

theorem coefficient_ofNat (n : Nat) : (ofNat n).coefficient = n := by
  have hfold : Decimal.natOfDigits (Decimal.digitsOf n) = n := by
    have h := Nat.ofDigitChars_ten_toDigits (n := n)
    rwa [Nat.ofDigitChars_eq_foldl] at h
  have hnil : (ofNat n).whole ++ (ofNat n).places = Decimal.digitsOf n := List.append_nil _
  rw [coefficient, hnil, ← Decimal.natOfDigits_eq, hfold]

/-- The digits of a natural number are read as that number, unless it is read as a double. -/
theorem ofLiteral?_ofNat (n : Nat) :
    InRange n ∧ Number.ofLiteral? (toString n) = some (.ofInt n) ∨
      ∃ x, Number.ofLiteral? (toString n) = some (.real x) := by
  have hvalue : (ofNat n).value = (n : Int) := by
    rw [value, coefficient_ofNat]
    exact div_one _
  rw [(ofNat n).ofLiteral?_eq (text_ofNat n).symm, hvalue, Rat.num_intCast, Rat.den_intCast, coefficient_ofNat]
  split
  · rename_i hfits
    exact .inl ⟨hfits.1, rfl⟩
  · exact .inr ⟨_, rfl⟩

end Numeral

/-! ## Doubles -/

/-- The digits of a decimal with a point among them, or without. -/
theorem Decimal.exists_numeral (d : Decimal) : ∃ n : Numeral, n.text = d.positional := by
  have hzeros {k : Nat} : ∀ c ∈ List.replicate k '0', isDigit c = true := by
    intro c hc
    rw [List.eq_of_mem_replicate hc]
    rfl
  unfold positional
  dsimp only
  split
  · have hdigits : ∀ c ∈ digitsOf d.digits ++ List.replicate d.exponent.toNat '0', isDigit c = true :=
      List.forall_mem_append.mpr ⟨fun _ => Numeral.isDigit_of_mem, hzeros⟩
    have hne : digitsOf d.digits ++ List.replicate d.exponent.toNat '0' ≠ [] :=
      List.append_ne_nil_of_left_ne_nil Nat.toDigits_ne_nil _
    exact ⟨.ofDigits _ hdigits hne, List.append_nil _⟩
  · generalize hpadded : List.replicate _ '0' ++ digitsOf d.digits = padded
    have hdigits : ∀ c ∈ padded, isDigit c = true := by
      rw [← hpadded]
      exact List.forall_mem_append.mpr ⟨hzeros, fun _ => Numeral.isDigit_of_mem⟩
    have hne : padded ≠ [] := by
      rw [← hpadded]
      exact List.append_ne_nil_of_right_ne_nil _ Nat.toDigits_ne_nil
    generalize padded.length - _ = k
    refine ⟨⟨padded.take k, some (padded.drop k), ?_, ?_⟩, rfl⟩
    · simpa only [Option.getD_some, List.take_append_drop] using hdigits
    · simpa only [Option.getD_some, List.take_append_drop] using hne

/-- The text of a double is a numeral or a word, with a minus sign if the sign bit is set. -/
theorem renderFloat_cases (x : Float) :
    ∃ size, ((∃ n : Numeral, n.text = size) ∨ size = "inf".toList ∨ size = "NaN".toList) ∧
      ((renderFloat x).toList = size ∨ Binary.isSigned x = true ∧ (renderFloat x).toList = '-' :: size) := by
  have hsign : ∀ size : List Char,
      (String.ofList ((if Binary.isSigned x then ['-'] else []) ++ size)).toList = size ∨
        Binary.isSigned x = true ∧
          (String.ofList ((if Binary.isSigned x then ['-'] else []) ++ size)).toList = '-' :: size := by
    intro size
    rw [String.toList_ofList]
    split
    · exact .inr ⟨‹_›, rfl⟩
    · exact .inl rfl
  unfold renderFloat
  dsimp only
  split
  · exact ⟨_, .inr (.inr rfl), .inl rfl⟩
  split
  · exact ⟨['i', 'n', 'f'], .inr (.inl rfl), hsign _⟩
  split
  · exact ⟨['0'], .inl ⟨Numeral.ofNat 0, rfl⟩, hsign _⟩
  · exact ⟨_, .inl (Decimal.exists_numeral _), hsign _⟩

/-! ## Signs -/

namespace Double

variable {x : Float} {v error : ℚ}

/-- The sign of a double, which its first bit tells. -/
def signOf (x : Float) : Sign := Sign.ofBitVec (@unpackSign Format.binary64 x.toModel.toBits.toBitVec)

theorem isSigned_iff : Binary.isSigned x = true ↔ signOf x = .negative := by
  have hlt : x.toModel.toBits.toBitVec.toNat < 2 ^ 64 := x.toModel.toBits.toBitVec.isLt
  have hbit : (@unpackSign Format.binary64 x.toModel.toBits.toBitVec).toNat =
      x.toModel.toBits.toBitVec.toNat / 2 ^ 63 % 2 := by
    rw [unpackSign_eq]
    show (x.toModel.toBits.toBitVec.toNat >>> 63) % 2 = _
    rw [Nat.shiftRight_eq_div_pow]
  have hsigned : Binary.isSigned x = true ↔ x.toModel.toBits.toBitVec.toNat / 2 ^ 63 = 1 := beq_iff_eq
  rw [hsigned, signOf, Sign.ofBitVec]
  split
  · rename_i h
    rw [h] at hbit
    have hzero : (0#1).toNat = 0 := rfl
    simp only [reduceCtorEq, iff_false]
    omega
  · rename_i h
    have hne : (@unpackSign Format.binary64 x.toModel.toBits.toBitVec).toNat ≠ 0 :=
      fun h0 => h (BitVec.eq_of_toNat_eq h0)
    simp only [iff_true]
    omega

/-- A double that stands for a positive number has no sign. -/
theorem isSigned_of_reads (h : Reads x v) (hv : 0 < v) : Binary.isSigned x = false := by
  obtain @⟨s, m, e, hm, hx, -, -, -⟩ := h
  have hsign : signOf x = s := by
    obtain ⟨-, -, hu⟩ | ⟨-, -, hu⟩ | ⟨-, -, hu⟩ | ⟨-, -, _, hu⟩ | ⟨-, -, _, hu⟩ :=
        unpack_cases x.toModel.toBits.toBitVec <;>
      have hu := hu.symm.trans hx
    · cases hu
    · cases hu
    · cases hu
    · exact (UnpackedFloat.finite.inj hu).1
    · exact (UnpackedFloat.finite.inj hu).1
  rw [← Bool.not_eq_true, isSigned_iff, hsign]
  rintro rfl
  have hpos : (0 : ℚ) < m * 2 ^ e := mul_pos (by exact_mod_cast hm) (two_zpow_pos e)
  rw [sign, neg_one_mul] at hv
  linarith

/-- A double without a sign is not below zero. -/
theorem not_lt_zero (h : Binary.isSigned x = false) : ¬ x < 0 := by
  have hsign : Sign.ofBitVec (@unpackSign Format.binary64 x.toModel.toBits.toBitVec) = .positive := by
    cases hs : signOf x with
    | positive => exact hs
    | negative =>
      rw [isSigned_iff.mpr hs] at h
      cases h
  intro hlt
  have hlt : x.toModel < (0 : Float).toModel := of_decide_eq_true hlt
  have hlt : x.toModel.unpack.compare (0 : Float).toModel.unpack = some .lt := beq_iff_eq.mp hlt
  have hzero : (0 : Float).toModel.unpack = .zero .positive := by rfl
  rw [hzero] at hlt
  obtain ⟨-, -, hu⟩ | ⟨-, -, hu⟩ | ⟨-, -, hu⟩ | ⟨-, -, _, hu⟩ | ⟨-, -, _, hu⟩ :=
      unpack_cases x.toModel.toBits.toBitVec <;>
    rw [show x.toModel.unpack = _ from hu] at hlt
  · rw [hsign] at hlt
    cases hlt
  · cases hlt
  · cases hlt
  · rw [hsign] at hlt
    cases hlt
  · rw [hsign] at hlt
    cases hlt

theorem near_neg (h : Near x v error) : Near (-x) (-v) error := by
  obtain ⟨δ, hδ, hreads⟩ := h
  exact ⟨δ, hδ, neg_mul v (1 + δ) ▸ reads_neg hreads⟩

/-- A double near to a positive number has no sign. -/
theorem isSigned_of_near (h : Near x v error) (hv : 0 < v) (he : error < 1) : Binary.isSigned x = false := by
  obtain ⟨δ, hδ, hreads⟩ := h
  exact isSigned_of_reads hreads (mul_pos hv (by linarith [(abs_le.mp hδ).1]))

/-- The quotient that stands for the negative of a fraction with the least integer above. -/
theorem isSigned_least {d : Int} (hd : 0 < d) (hr : InRange d) :
    Binary.isSigned (-Float.ofInt Int128.least / Float.ofInt d) = false := by
  have hden : (1 : ℚ) ≤ d ∧ (d : ℚ) ≤ 2 ^ 127 := by
    simp only [InRange, Int128.least, Int128.greatest] at hr
    exact ⟨by exact_mod_cast hd, by exact_mod_cast (by omega : d ≤ 2 ^ 127)⟩
  have hd' : (0 : ℚ) < d := by linarith
  have hnum : Near (-Float.ofInt Int128.least) (2 ^ 127) roundoff := by
    have h := near_neg (near_ofInt (n := Int128.least) (by decide) (by decide))
    have hleast : ((Int128.least : Int) : ℚ) = -2 ^ 127 := by norm_num [Int128.least]
    rwa [hleast, neg_neg] at h
  have hpos : (0 : ℚ) < 2 ^ 127 / d := by positivity
  have hnear : Near (-Float.ofInt Int128.least / Float.ofInt d) (2 ^ 127 / d) (4 * roundoff) := by
    refine near_div hnum (near_ofInt hd.ne' hr) ?_ ?_ <;> rw [abs_of_pos hpos]
    · calc (2 : ℚ) ^ (-127 : Int) ≤ 1 := by norm_num
        _ ≤ 2 ^ 127 / d := (one_le_div hd').mpr hden.2
    · calc (2 : ℚ) ^ 127 / d ≤ 2 ^ 127 := div_le_self (by positivity) hden.1
        _ ≤ 2 ^ (127 : Int) := by norm_num
  exact isSigned_of_near hnear hpos (by norm_num [roundoff])

end Double

namespace Number

/-- A double among the numbers is written without a sign. -/
def Unsigned : Number → Prop
  | .ratio .. => True
  | .real x => Binary.isSigned x = false

/-- The negative of a negative number is written without a sign, also where it does not fit. -/
theorem Unsigned.neg {a : Number} (h : a.Unsigned) (ha : a.Normal) (hneg : a.isNegative = true) : a.neg.Unsigned := by
  cases a with
  | real x => exact absurd (of_decide_eq_true hneg) (Double.not_lt_zero h)
  | ratio n d =>
    obtain ⟨hd, -, hn, hdr⟩ := ha
    rw [Number.neg]
    cases hm : Int128.neg? n with
    | some m => trivial
    | none =>
      have hout : ¬ InRange (-n) := Int128.fit_eq_none_iff.mp hm
      have hleast : n = Int128.least := by
        simp only [InRange, Int128.least, Int128.greatest] at hn hout ⊢
        omega
      rw [hleast]
      exact Double.isSigned_least hd hdr

end Number

end Formula
