import Formula.Proofs.Number.Normal

/-!
# Fractions of machine integers

The arithmetic of fractions on machine integers of 128 bits in two's complement. Most operations are
checked, and are refused where their result would wrap. The division by the greatest common divisor and the
remainders of Euclid's algorithm are not: there a machine that wraps or divides by zero would stop with a fault.

`Agrees` relates a computation on machine integers to one on integers of the range. It holds of each
operation, for all machine integers: what is refused is what the integers have no result for, and there
is no fault (`agrees_ratio`, `Fraction.agrees_add` … `Fraction.agrees_pow`, `agrees_factorial`).
-/

namespace Formula

open Int128 (InRange fit fit_eq_some_iff)

/-- A machine integer of 128 bits. -/
abbrev Word := BitVec 128

namespace Word

/-- Why there is no result: a check refuses the operation, or an operation without a check wraps or divides
by zero. -/
inductive Stop where
  | refused
  | fault
deriving DecidableEq, Repr

/-! ## Operations -/

def checked (overflow : Bool) (a : Word) : Except Stop Word :=
  if overflow then .error .refused else .ok a

def neg? (a : Word) : Except Stop Word := checked a.negOverflow (-a)

def add? (a b : Word) : Except Stop Word := checked (a.saddOverflow b) (a + b)

def mul? (a b : Word) : Except Stop Word := checked (a.smulOverflow b) (a * b)

def rem? (a b : Word) : Except Stop Word := checked (b == 0 || a.sdivOverflow b) (a.srem b)

/-- The power, checked on its result. -/
def pow? (a : Word) (k : Nat) : Except Stop Word := checked (!decide (InRange (a.toInt ^ k))) (a ^ k)

/-- The bits of an unsigned integer read as a signed one, if that does not change the value. -/
def signed (a : Word) : Except Stop Word := checked a.msb a

/-- The signed quotient without a check. -/
def quotient (a b : Word) : Except Stop Word :=
  if b == 0 || a.sdivOverflow b then .error .fault else .ok (a.sdiv b)

/-- The unsigned remainder without a check. -/
def remainder (a b : Word) : Except Stop Word :=
  if b = 0 then .error .fault else .ok (a % b)

/-- Euclid's algorithm on unsigned integers. -/
def gcd (a b : Word) : Except Stop Word :=
  if b = 0 then .ok a
  else match _h : remainder a b with
    | .ok r => gcd b r
    | .error stop => .error stop
termination_by b.toNat
decreasing_by
  unfold remainder at _h
  split at _h
  · cases _h
  · rename_i hb
    cases _h
    rw [BitVec.toNat_umod]
    exact Nat.mod_lt _ (Nat.pos_of_ne_zero fun h => hb (BitVec.eq_of_toNat_eq h))

/-- A fraction of machine integers. -/
structure Fraction where
  num : Word
  den : Word
deriving DecidableEq, Repr

/-- The fraction in lowest terms with a positive denominator. -/
def ratio (n d : Word) : Except Stop Fraction :=
  if d = 0 then .error .refused
  else do
    let g ← signed (← gcd n.abs d.abs)
    let g := if g.slt 1 then 1 else g
    let n ← quotient n g
    let d ← quotient d g
    if d.slt 0 then return ⟨← neg? n, ← neg? d⟩ else return ⟨n, d⟩

namespace Fraction

/-- The number that the fraction is. -/
def toNumber (a : Fraction) : Number := .ratio a.num.toInt a.den.toInt

def neg (a : Fraction) : Except Stop Fraction := do return ⟨← neg? a.num, a.den⟩

def add (a b : Fraction) : Except Stop Fraction := do
  ratio (← add? (← mul? a.num b.den) (← mul? b.num a.den)) (← mul? a.den b.den)

def mul (a b : Fraction) : Except Stop Fraction := do
  ratio (← mul? a.num b.num) (← mul? a.den b.den)

def div (a b : Fraction) : Except Stop Fraction := do
  ratio (← mul? a.num b.den) (← mul? a.den b.num)

def rem (a b : Fraction) : Except Stop Fraction := do
  let x ← mul? a.num b.den
  let y ← mul? b.num a.den
  let r ← rem? x y
  let r ← if r ≠ 0 ∧ r.slt 0 ≠ y.slt 0 then add? r y else .ok r
  ratio r (← mul? a.den b.den)

/-- The power to a machine integer of at most 32 bits besides the sign. -/
def pow (a : Fraction) (e : Word) : Except Stop Fraction := do
  if Nat.pow 2 32 ≤ e.abs.toNat then .error .refused
  let pn ← pow? a.num e.abs.toNat
  let pd ← pow? a.den e.abs.toNat
  if e.slt 0 then ratio pd pn else ratio pn pd

end Fraction

/-- The factorial, multiplied up. -/
def factorial (n : Nat) : Except Stop Word :=
  (Number.factors n).foldlM (fun acc k => mul? acc (BitVec.ofNat 128 k)) 1

/-! ## Agreement -/

/-- A computation on machine integers has the result of one on integers, read by `f`, and is refused where
that has none. -/
inductive Agrees {α β : Type} (f : α → β) : Except Stop α → Option β → Prop
  | ok (a : α) : Agrees f (.ok a) (some (f a))
  | refused : Agrees f (.error .refused) none

namespace Agrees

variable {α β γ δ : Type} {f : α → β} {g : γ → δ} {x : Except Stop α} {o : Option β}

theorem of_eq {a : α} {b : β} (h : f a = b) : Agrees f (.ok a) (some b) :=
  h ▸ .ok a

theorem bind {k : α → Except Stop γ} {l : β → Option δ} (h : Agrees f x o)
    (hk : ∀ a, o = some (f a) → Agrees g (k a) (l (f a))) : Agrees g (x >>= k) (o >>= l) := by
  cases h with
  | ok a => exact hk a rfl
  | refused => exact .refused

theorem ite {p q : Prop} [Decidable p] [Decidable q] {x' : Except Stop α} {o' : Option β} (hpq : p ↔ q)
    (h : Agrees f x o) (h' : Agrees f x' o') : Agrees f (if p then x else x') (if q then o else o') := by
  by_cases hp : p
  · rw [if_pos hp, if_pos (hpq.mp hp)]
    exact h
  · rw [if_neg hp, if_neg fun hq => hp (hpq.mpr hq)]
    exact h'

/-- No computation that agrees with one on integers stops with a fault. -/
theorem ne_fault (h : Agrees f x o) : x ≠ .error .fault := by
  cases h <;> simp

end Agrees

/-! ## Values -/

theorem inRange_toInt (a : Word) : InRange a.toInt := by
  have hlo := BitVec.le_toInt a
  have hhi := BitVec.toInt_lt (x := a)
  simp only [InRange, Int128.least, Int128.greatest]
  omega

theorem toInt_eq_zero_iff {a : Word} : a.toInt = 0 ↔ a = 0 :=
  ⟨fun h => BitVec.eq_of_toInt_eq h, fun h => by rw [h]; rfl⟩

theorem slt_zero_iff {a : Word} : a.slt 0 = true ↔ a.toInt < 0 :=
  BitVec.slt_iff_toInt_lt

theorem toNat_abs_eq (a : Word) : a.abs.toNat = a.toInt.natAbs := by
  rw [BitVec.toNat_abs, BitVec.toInt_eq_msb_cond]
  have := a.isLt
  split <;> omega

/-- The check of an operation agrees with the range if it finds out whether the value lies outside. -/
theorem agrees_checked {overflow : Bool} {a : Word} {n : Int} (hval : overflow = false → a.toInt = n)
    (hout : overflow = true → ¬ InRange n) : Agrees BitVec.toInt (checked overflow a) (fit n) := by
  cases overflow with
  | true =>
    rw [Int128.fit_eq_none_iff.mpr (hout rfl)]
    exact .refused
  | false =>
    obtain rfl := hval rfl
    rw [fit_eq_some_iff.mpr ⟨inRange_toInt a, rfl⟩]
    exact .ok a

theorem agrees_neg? (a : Word) : Agrees BitVec.toInt (neg? a) (Int128.neg? a.toInt) := by
  refine agrees_checked (fun h => BitVec.toInt_neg_of_not_negOverflow (by simp [h])) fun h => ?_
  simp only [BitVec.negOverflow, beq_iff_eq] at h
  rw [h]
  decide

theorem agrees_add? (a b : Word) : Agrees BitVec.toInt (add? a b) (Int128.add? a.toInt b.toInt) := by
  refine agrees_checked (fun h => BitVec.toInt_add_of_not_saddOverflow (by simp [h])) fun h => ?_
  simp only [BitVec.saddOverflow, Bool.or_eq_true, decide_eq_true_eq] at h
  simp only [InRange, Int128.least, Int128.greatest]
  omega

theorem agrees_mul? (a b : Word) : Agrees BitVec.toInt (mul? a b) (Int128.mul? a.toInt b.toInt) := by
  refine agrees_checked (fun h => BitVec.toInt_mul_of_not_smulOverflow (by simp [h])) fun h => ?_
  simp only [BitVec.smulOverflow, Bool.or_eq_true, decide_eq_true_eq] at h
  simp only [InRange, Int128.least, Int128.greatest]
  omega

/-- The only quotient that wraps. -/
theorem sdivOverflow_iff {a b : Word} :
    a.sdivOverflow b = true ↔ a = BitVec.intMin 128 ∧ b = -1#128 := by
  simp [BitVec.sdivOverflow_eq, BitVec.neg_one_eq_allOnes]

theorem toInt_sdiv_of_not_overflow {a b : Word} (h : a.sdivOverflow b = false) :
    (a.sdiv b).toInt = a.toInt.tdiv b.toInt := by
  refine BitVec.toInt_sdiv_of_ne_or_ne a b ?_
  by_contra hc
  rw [not_or, not_not, not_not, ← sdivOverflow_iff, h] at hc
  cases hc

theorem agrees_rem? (a b : Word) : Agrees BitVec.toInt (rem? a b) (Int128.rem? a.toInt b.toInt) := by
  unfold rem? Int128.rem?
  by_cases hb : b = 0
  · rw [if_pos (toInt_eq_zero_iff.mpr hb), hb]
    exact .refused
  · rw [if_neg (mt toInt_eq_zero_iff.mp hb), beq_eq_false_iff_ne.mpr hb, Bool.false_or]
    cases ho : a.sdivOverflow b with
    | true =>
      obtain ⟨rfl, rfl⟩ := sdivOverflow_iff.mp ho
      exact .refused
    | false =>
      have hq := inRange_toInt (a.sdiv b)
      rw [toInt_sdiv_of_not_overflow ho] at hq
      rw [fit_eq_some_iff.mpr ⟨hq, rfl⟩]
      exact .of_eq (BitVec.toInt_srem a b)

/-- A power has a result if it lies in the range. -/
theorem pow?_eq_fit (a : Int) (k : Nat) : Int128.pow? a k = fit (a ^ k) := by
  cases h : Int128.pow? a k with
  | some v =>
    have hv := Int128.inRange_of_pow? h
    rw [Number.pow_of_pow? h] at hv ⊢
    exact (fit_eq_some_iff.mpr ⟨hv, rfl⟩).symm
  | none =>
    unfold Int128.pow? at h
    split at h
    · cases h
    rename_i ha
    split at h
    · exact h.symm
    rename_i hk
    refine (Int128.fit_eq_none_iff.mpr fun hr => ?_).symm
    have h2 : 2 ^ 128 ≤ (a ^ k).natAbs := by
      rw [Int.natAbs_pow]
      calc 2 ^ 128 ≤ 2 ^ k := Nat.pow_le_pow_right (by decide) (by omega)
        _ ≤ a.natAbs ^ k := Nat.pow_le_pow_left (by omega) k
    simp only [InRange, Int128.least, Int128.greatest] at hr
    omega

theorem toInt_pow (a : Word) (k : Nat) : (a ^ k).toInt = (a.toInt ^ k).bmod (2 ^ 128) := by
  induction k with
  | zero => simp
  | succ k ih => rw [BitVec.pow_succ, BitVec.toInt_mul, ih, Int.bmod_mul_bmod, Int.pow_succ]

theorem agrees_pow? (a : Word) (k : Nat) : Agrees BitVec.toInt (pow? a k) (Int128.pow? a.toInt k) := by
  rw [pow?_eq_fit]
  refine agrees_checked (fun h => ?_) fun h => by simpa using h
  have h : InRange (a.toInt ^ k) := by simpa using h
  simp only [InRange, Int128.least, Int128.greatest] at h
  rw [toInt_pow, Int.bmod_eq_of_le (by omega) (by omega)]

theorem agrees_signed (a : Word) : Agrees BitVec.toInt (signed a) (fit a.toNat) := by
  have := a.isLt
  refine agrees_checked (fun h => by rw [BitVec.toInt_eq_msb_cond, h]; rfl) fun h => ?_
  rw [BitVec.msb_eq_true_iff_two_mul_ge] at h
  simp only [InRange, Int128.least, Int128.greatest]
  omega

/-! ## Euclid's algorithm and lowest terms -/

theorem gcd_eq (a b : Word) : ∃ g, gcd a b = .ok g ∧ g.toNat = Nat.gcd a.toNat b.toNat := by
  fun_induction gcd a b with
  | case1 a => exact ⟨a, rfl, by simp⟩
  | case2 a b hb r hr ih =>
    obtain ⟨g, hg, hval⟩ := ih
    refine ⟨g, hg, ?_⟩
    rw [remainder, if_neg hb] at hr
    cases hr
    rw [hval, BitVec.toNat_umod, Nat.gcd_comm, ← Nat.gcd_rec, Nat.gcd_comm]
  | case3 a b hb stop hr =>
    rw [remainder, if_neg hb] at hr
    cases hr

/-- The quotient by a positive integer that divides is exact. -/
theorem quotient_eq {a g : Word} (hg : 0 < g.toInt) (hdvd : g.toInt ∣ a.toInt) :
    ∃ q, quotient a g = .ok q ∧ q.toInt = a.toInt / g.toInt := by
  have hz : g ≠ 0 := by
    rintro rfl
    exact absurd hg (by decide)
  have ho : a.sdivOverflow g = false := by
    by_contra hc
    obtain ⟨-, rfl⟩ := sdivOverflow_iff.mp (Bool.not_eq_false _ ▸ hc)
    exact absurd hg (by decide)
  refine ⟨a.sdiv g, ?_, ?_⟩
  · rw [quotient, ho, beq_eq_false_iff_ne.mpr hz]
    rfl
  · rw [toInt_sdiv_of_not_overflow ho, Int.tdiv_eq_ediv_of_dvd hdvd]

theorem agrees_ratio (n d : Word) :
    Agrees Fraction.toNumber (ratio n d) (Number.ratio? n.toInt d.toInt) := by
  unfold ratio Number.ratio?
  by_cases hd : d = 0
  · rw [if_pos hd, if_pos (toInt_eq_zero_iff.mpr hd)]
    exact .refused
  rw [if_neg hd, if_neg (mt toInt_eq_zero_iff.mp hd)]
  obtain ⟨g, hg, hval⟩ := gcd_eq n.abs d.abs
  rw [toNat_abs_eq, toNat_abs_eq] at hval
  have hpos : 0 < Int.gcd n.toInt d.toInt := Int.gcd_pos_of_ne_zero_right _ (mt toInt_eq_zero_iff.mp hd)
  rw [hg]
  show Agrees _ (signed g >>= _) (fit (Nat.gcd n.toInt.natAbs d.toInt.natAbs) >>= _)
  rw [← hval]
  refine (agrees_signed g).bind fun g' hg' => ?_
  obtain ⟨-, hg'⟩ := fit_eq_some_iff.mp hg'
  rw [hval] at hg'
  change (Int.gcd n.toInt d.toInt : Int) = g'.toInt at hg'
  have hslt : ¬ g'.slt 1 = true := by
    rw [BitVec.slt_iff_toInt_lt]
    exact Int.not_lt.mpr (by simpa using show 1 ≤ g'.toInt by omega)
  obtain ⟨n', hn, hn'⟩ := quotient_eq (a := n) (g := g') (by omega) (hg' ▸ Int.gcd_dvd_left ..)
  obtain ⟨d', hd, hd'⟩ := quotient_eq (a := d) (g := g') (by omega) (hg' ▸ Int.gcd_dvd_right ..)
  dsimp only
  rw [if_neg hslt, hn, hd, ← hn', ← hd']
  refine .ite slt_zero_iff ?_ (.ok (Fraction.mk n' d'))
  refine (agrees_neg? n').bind fun n'' _ => (agrees_neg? d').bind fun d'' _ => .ok (Fraction.mk n'' d'')

/-! ## Arithmetic -/

namespace Fraction

theorem agrees_neg (a : Fraction) :
    Agrees toNumber a.neg ((Int128.neg? a.num.toInt).map (Number.ratio · a.den.toInt)) := by
  rw [Option.map_eq_bind]
  exact (agrees_neg? a.num).bind fun n _ => .ok (Fraction.mk n a.den)

theorem agrees_add (a b : Fraction) :
    Agrees toNumber (a.add b) (Number.addExact a.toNumber b.toNumber) :=
  (agrees_mul? ..).bind fun _ _ => (agrees_mul? ..).bind fun _ _ => (agrees_add? ..).bind fun _ _ =>
    (agrees_mul? ..).bind fun _ _ => agrees_ratio ..

theorem agrees_mul (a b : Fraction) :
    Agrees toNumber (a.mul b) (Number.mulExact a.toNumber b.toNumber) :=
  (agrees_mul? ..).bind fun _ _ => (agrees_mul? ..).bind fun _ _ => agrees_ratio ..

theorem agrees_div (a b : Fraction) :
    Agrees toNumber (a.div b) (Number.divExact a.toNumber b.toNumber) :=
  (agrees_mul? ..).bind fun _ _ => (agrees_mul? ..).bind fun _ _ => agrees_ratio ..

theorem agrees_rem (a b : Fraction) :
    Agrees toNumber (a.rem b) (Number.remExact a.toNumber b.toNumber) := by
  refine (agrees_mul? ..).bind fun x _ => (agrees_mul? ..).bind fun y _ =>
    (agrees_rem? x y).bind fun r _ => ?_
  have hsign : (r ≠ 0 ∧ r.slt 0 ≠ y.slt 0) ↔ (r.toInt ≠ 0 ∧ (r.toInt < 0) ≠ (y.toInt < 0)) := by
    rw [Ne, Ne, Ne, Ne, Bool.eq_iff_iff, slt_zero_iff, slt_zero_iff, toInt_eq_zero_iff, eq_iff_iff]
  have hratio : ∀ r : Word, Agrees toNumber (mul? a.den b.den >>= ratio r)
      (Int128.mul? a.den.toInt b.den.toInt >>= Number.ratio? r.toInt) :=
    fun r => (agrees_mul? ..).bind fun _ _ => agrees_ratio ..
  exact .ite hsign ((agrees_add? r y).bind fun r _ => hratio r) (hratio r)

theorem agrees_pow (a : Fraction) (e : Word) :
    Agrees toNumber (a.pow e) (Number.powExact a.toNumber e.toInt) := by
  unfold pow
  rw [toNat_abs_eq]
  refine .ite Iff.rfl .refused ?_
  refine (agrees_pow? ..).bind fun pn _ => (agrees_pow? ..).bind fun pd _ => ?_
  exact .ite slt_zero_iff (agrees_ratio ..) (agrees_ratio ..)

end Fraction

theorem agrees_factorial {n : Nat} (h : n ≤ 170) :
    Agrees BitVec.toInt (factorial n) (Number.factorialExact n) := by
  have hfactors : ∀ k ∈ Number.factors n, k ≤ 170 := by
    intro k hk
    have := List.mem_range.mp (List.mem_of_mem_drop hk)
    omega
  unfold factorial Number.factorialExact
  generalize Number.factors n = ks at hfactors
  -- the product so far is any machine integer
  suffices ∀ acc : Word, Agrees BitVec.toInt (ks.foldlM (fun acc k => mul? acc (BitVec.ofNat 128 k)) acc)
      (ks.foldlM (fun acc k => Int128.mul? acc (k : Nat)) acc.toInt) from this 1
  induction ks with
  | nil => exact fun acc => .ok acc
  | cons k ks ih =>
    intro acc
    have hk : (BitVec.ofNat 128 k).toInt = k := by
      have := hfactors k List.mem_cons_self
      rw [BitVec.toInt_ofNat', Int.bmod_eq_of_le (by omega) (by omega)]
    have hmul := agrees_mul? acc (BitVec.ofNat 128 k)
    rw [hk] at hmul
    rw [List.foldlM_cons, List.foldlM_cons]
    exact hmul.bind fun acc _ => ih (fun k hk => hfactors k (List.mem_cons_of_mem _ hk)) acc

end Word

end Formula
