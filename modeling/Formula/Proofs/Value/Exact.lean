import Mathlib.Algebra.BigOperators.Group.List.Basic
import Mathlib.Algebra.Order.Ring.Abs
import Formula.Value.Arithmetic
import Formula.Proofs.Number.Exact

/-!
# Arithmetic on values is exact

`Value.rational?` reads a value as a rational number at given values of its symbols, and `Reads` says besides that
all numbers in it are fractions in lowest terms, so that the questions the operations ask about numbers are
questions about rational numbers.

Each operation on values computes some numbers on its way: the partial sums and products of the numbers in a
row, and what a power, a quotient, a remainder, a factorial or an absolute value of numbers comes to. `Made`
lists them. If none of them is a double, the operation takes what its operands read as to the exact result
(`Reads.add`, `Reads.mul`, `Reads.pow`, `Reads.div`, `Reads.mod`, `Reads.fact`, `Reads.abs`). For sums and
products this is one argument about the numbers in a row and one about the rest (`Reads.ofTerms`,
`Reads.ofFactors`).
-/

namespace Formula.Value

/-! ## Values as rational numbers -/

section

variable (ρ : String → ℚ)

mutual

/-- The rational number that a value is, where its symbols stand for the given ones. -/
def rational? : Value → Option ℚ
  | .number n => n.rational?
  | .symbol name => some (ρ name)
  | .sum ts => (rationals? ts).map List.sum
  | .product fs => (rationals? fs).map List.prod
  | .power a b => do Exact.power? (← rational? a) (← rational? b)
  | .remainder a b => do Exact.remainder? (← rational? a) (← rational? b)
  | .factorial a => do Exact.factorial? (← rational? a)
  | .absolute a => (rational? a).map fun q => |q|
  | _ => none

def rationals? : List Value → Option (List ℚ)
  | [] => some []
  | v :: vs => do return (← rational? v) :: (← rationals? vs)

end

end

mutual

/-- All numbers in the value are fractions in lowest terms. -/
def Lowest : Value → Prop
  | .number n => ∃ q, n.Is q
  | .sum ts => AllLowest ts
  | .product fs => AllLowest fs
  | .power a b => a.Lowest ∧ b.Lowest
  | .remainder a b => a.Lowest ∧ b.Lowest
  | .factorial a => a.Lowest
  | .absolute a => a.Lowest
  | _ => True

def AllLowest : List Value → Prop
  | [] => True
  | v :: vs => v.Lowest ∧ AllLowest vs

end

-- the equations of the recursion are made once here, and not by each proof below that asks for them
attribute [local simp] rational? rationals? Lowest AllLowest

/-- The value has the rational value, and its numbers are in lowest terms. -/
def Reads (ρ : String → ℚ) (v : Value) (q : ℚ) : Prop := v.rational? ρ = some q ∧ v.Lowest

variable {ρ : String → ℚ} {a b : Value} {p q r : ℚ}

theorem reads_number {n : Number} : Reads ρ (.number n) q ↔ n.Is q := by
  rw [Reads, rational?, Lowest]
  constructor
  · rintro ⟨h, p, hp⟩
    rw [hp.rational?] at h
    obtain rfl := Option.some.inj h
    exact hp
  · intro h
    exact ⟨h.rational?, q, h⟩

theorem reads_list {vs : List Value} {qs : List ℚ} :
    rationals? ρ vs = some qs ∧ AllLowest vs ↔ List.Forall₂ (Reads ρ) vs qs := by
  induction vs generalizing qs with
  | nil =>
    rw [rationals?, AllLowest, List.forall₂_nil_left_iff, Option.some.injEq]
    simp [eq_comm]
  | cons v vs ih =>
    rw [rationals?, AllLowest, List.forall₂_cons_left_iff]
    simp only [Option.bind_eq_bind, Option.pure_def, Option.bind_eq_some_iff, Option.some.injEq, ← ih]
    constructor
    · rintro ⟨⟨q, hq, qs, hqs, rfl⟩, hv, hvs⟩
      exact ⟨q, qs, ⟨hq, hv⟩, ⟨hqs, hvs⟩, rfl⟩
    · rintro ⟨q, qs, ⟨hq, hv⟩, ⟨hqs, hvs⟩, rfl⟩
      exact ⟨⟨q, hq, qs, hqs, rfl⟩, hv, hvs⟩

theorem reads_sum {ts : List Value} :
    Reads ρ (.sum ts) q ↔ ∃ qs, List.Forall₂ (Reads ρ) ts qs ∧ qs.sum = q := by
  simp only [Reads, rational?, Lowest, Option.map_eq_some_iff, ← reads_list]
  exact ⟨fun ⟨⟨qs, h, he⟩, hl⟩ => ⟨qs, ⟨h, hl⟩, he⟩, fun ⟨qs, ⟨h, hl⟩, he⟩ => ⟨⟨qs, h, he⟩, hl⟩⟩

theorem reads_product {fs : List Value} :
    Reads ρ (.product fs) q ↔ ∃ qs, List.Forall₂ (Reads ρ) fs qs ∧ qs.prod = q := by
  simp only [Reads, rational?, Lowest, Option.map_eq_some_iff, ← reads_list]
  exact ⟨fun ⟨⟨qs, h, he⟩, hl⟩ => ⟨qs, ⟨h, hl⟩, he⟩, fun ⟨qs, ⟨h, hl⟩, he⟩ => ⟨⟨qs, h, he⟩, hl⟩⟩

theorem Reads.power (ha : Reads ρ a p) (hb : Reads ρ b q) (h : Exact.power? p q = some r) :
    Reads ρ (.power a b) r := by
  refine ⟨?_, ha.2, hb.2⟩
  simp [ha.1, hb.1, h]

theorem Reads.remainder (ha : Reads ρ a p) (hb : Reads ρ b q) (h : Exact.remainder? p q = some r) :
    Reads ρ (.remainder a b) r := by
  refine ⟨?_, ha.2, hb.2⟩
  simp [ha.1, hb.1, h]

theorem Reads.factorial (ha : Reads ρ a p) (h : Exact.factorial? p = some r) :
    Reads ρ (.factorial a) r := by
  refine ⟨?_, ha.2⟩
  simp [ha.1, h]

theorem Reads.absolute (ha : Reads ρ a p) : Reads ρ (.absolute a) |p| := by
  refine ⟨?_, ha.2⟩
  simp [ha.1]

theorem reads_one : Reads ρ one 1 := reads_number.mpr (Number.is_ofInt 1)

theorem asNumber?_eq_some {v : Value} {n : Number} : v.asNumber? = some n ↔ v = .number n := by
  cases v <;> simp [asNumber?]

/-- The terms of a value add up to it. -/
theorem Reads.terms (h : Reads ρ a p) : ∃ qs, List.Forall₂ (Reads ρ) a.terms qs ∧ qs.sum = p := by
  unfold Value.terms
  split
  · exact reads_sum.mp h
  · exact ⟨[p], .cons h .nil, List.sum_singleton⟩

/-- The factors of a value multiply up to it. -/
theorem Reads.factors (h : Reads ρ a p) :
    ∃ qs, List.Forall₂ (Reads ρ) a.factors qs ∧ qs.prod = p := by
  unfold Value.factors
  split
  · exact reads_product.mp h
  · exact ⟨[p], .cons h .nil, List.prod_singleton⟩

/-! ## Rows of values -/

/-- The numbers in a row and the rest of it read as parts of what the row reads as. -/
theorem reads_parts {vs : List Value} {qs : List ℚ} (h : List.Forall₂ (Reads ρ) vs qs) :
    ∃ ns ss, List.Forall₂ Number.Is (numbers vs) ns ∧ List.Forall₂ (Reads ρ) (symbolic vs) ss ∧
      qs.Perm (ns ++ ss) := by
  induction h with
  | nil => exact ⟨[], [], .nil, .nil, .nil⟩
  | @cons v q vs qs hv _ ih =>
    obtain ⟨ns, ss, hn, hs, hp⟩ := ih
    cases hc : v.asNumber? with
    | none =>
      refine ⟨ns, q :: ss, ?_, ?_, ?_⟩
      · rwa [numbers, List.filterMap_cons_none hc]
      · rw [symbolic, List.filter_cons_of_pos (by rw [hc]; rfl)]
        exact .cons hv hs
      · exact (hp.cons q).trans List.perm_middle.symm
    | some n =>
      obtain rfl := asNumber?_eq_some.mp hc
      refine ⟨q :: ns, ss, ?_, ?_, hp.cons q⟩
      · rw [numbers, List.filterMap_cons_some hc]
        exact .cons (reads_number.mp hv) hn
      · rwa [symbolic, List.filter_cons_of_neg (by rw [hc]; simp)]

/-- Numbers are folded exactly if no result on the way is a double. -/
theorem is_foldl {op : Number → Number → Number} {f : ℚ → ℚ → ℚ}
    (hop : ∀ {a b p q}, a.Is p → b.Is q → (op a b).isExact = true → (op a b).Is (f p q))
    {ns : List Number} {qs : List ℚ} (h : List.Forall₂ Number.Is ns qs) {acc : Number} {q : ℚ}
    (ha : acc.Is q) (hm : ∀ n ∈ ns.scanl op acc, n.isExact = true) :
    (ns.foldl op acc).Is (qs.foldl f q) := by
  induction h generalizing acc q with
  | nil => exact ha
  | @cons n p ns qs hn _ ih =>
    rw [List.scanl_cons] at hm
    have hmem : op acc n ∈ ns.scanl op (op acc n) := by
      cases ns with
      | nil => rw [List.scanl_nil]; exact List.mem_cons_self
      | cons => rw [List.scanl_cons]; exact List.mem_cons_self
    have hex := hm _ (List.mem_cons_of_mem _ hmem)
    exact ih (hop ha hn hex) fun m hm' => hm m (List.mem_cons_of_mem _ hm')

/-! ## The numbers that operations compute -/

namespace Made

/-- The sums of the first numbers in a row of terms. -/
def terms (ts : List Value) : List Number := (numbers ts).scanl Number.add .zero

/-- The products of the first numbers in a row of factors. -/
def factors (fs : List Value) : List Number := (numbers fs).scanl Number.mul .one

def add (a b : Value) : List Number := terms (a.terms ++ b.terms)

def mul (a b : Value) : List Number := factors (a.factors ++ b.factors)

def neg (a : Value) : List Number := mul (.number .minusOne) a

def sub (a b : Value) : List Number := neg b ++ add a b.neg

/-- Powers to zero and one are not computed. -/
def pow (base exponent : Value) : List Number :=
  match base.asNumber?, exponent.asNumber? with
  | some b, some e => if e.isZero || e.isOne then [] else (b.pow? e).toList
  | _, _ => []

/-- A number is divided by a number, and anything else is multiplied by the inverse. -/
def div (a b : Value) : List Number :=
  match b.asNumber? with
  | none => pow b (int (-1)) ++ mul a (b.pow (int (-1)))
  | some d =>
    match a.asNumber?, Number.one.div? d with
    | some n, _ => (n.div? d).toList
    | none, some inverse => inverse :: mul a (.number inverse)
    | none, none => []

def mod (a b : Value) : List Number :=
  match a.asNumber?, b.asNumber? with
  | some a, some b => (a.rem? b).toList
  | _, _ => []

def fact : Value → List Number
  | .number n => n.factorial?.toList
  | _ => []

def abs : Value → List Number
  | .number n => [n.abs]
  | _ => []

end Made

/-- None of the numbers is a double. -/
def AllExact (ns : List Number) : Prop := ∀ n ∈ ns, n.isExact = true

instance (ns : List Number) : Decidable (AllExact ns) := inferInstanceAs (Decidable (∀ n ∈ ns, n.isExact = true))

theorem AllExact.append {ms ns : List Number} (h : AllExact (ms ++ ns)) : AllExact ms ∧ AllExact ns :=
  ⟨fun n hn => h n (List.mem_append_left _ hn), fun n hn => h n (List.mem_append_right _ hn)⟩

/-! ## Sums and products -/

theorem reads_collect_sum {vs : List Value} {qs : List ℚ} (h : List.Forall₂ (Reads ρ) vs qs) :
    Reads ρ (collect .sum vs) qs.sum := by
  unfold collect
  split
  · cases h with
    | cons hv h =>
      cases h
      rw [List.sum_singleton]
      exact hv
  · exact reads_sum.mpr ⟨qs, h, rfl⟩

theorem reads_collect_product {vs : List Value} {qs : List ℚ} (h : List.Forall₂ (Reads ρ) vs qs) :
    Reads ρ (collect .product vs) qs.prod := by
  unfold collect
  split
  · cases h with
    | cons hv h =>
      cases h
      rw [List.prod_singleton]
      exact hv
  · exact reads_product.mpr ⟨qs, h, rfl⟩

theorem Reads.ofTerms {ts : List Value} {qs : List ℚ} (h : List.Forall₂ (Reads ρ) ts qs)
    (hm : AllExact (Made.terms ts)) : Reads ρ (ofTerms ts) qs.sum := by
  obtain ⟨ns, ss, hn, hs, hp⟩ := reads_parts h
  have hc : ((numbers ts).foldl Number.add .zero).Is ns.sum := by
    rw [List.sum_eq_foldl]
    exact is_foldl Number.Is.add hn (Number.is_ofInt 0) hm
  rw [hp.sum_eq, List.sum_append]
  unfold Value.ofTerms
  dsimp only
  split
  · rename_i hz
    rw [hc.isZero_iff.mp hz.1, zero_add]
    exact reads_collect_sum hs
  · have hrow := List.rel_append hs (.cons (reads_number.mpr hc) .nil)
    rw [add_comm, ← List.sum_singleton (x := ns.sum), ← List.sum_append]
    exact reads_collect_sum hrow

theorem Reads.ofFactors {fs : List Value} {qs : List ℚ} (h : List.Forall₂ (Reads ρ) fs qs)
    (hm : AllExact (Made.factors fs)) : Reads ρ (ofFactors fs) qs.prod := by
  obtain ⟨ns, ss, hn, hs, hp⟩ := reads_parts h
  have hc : ((numbers fs).foldl Number.mul .one).Is ns.prod := by
    rw [List.prod_eq_foldl]
    exact is_foldl Number.Is.mul hn (Number.is_ofInt 1) hm
  rw [hp.prod_eq, List.prod_append]
  unfold Value.ofFactors
  dsimp only
  split
  · rename_i hz
    -- zero swallows the rest
    have h0 := hc.isZero_iff.mp hz.1
    rw [h0, zero_mul]
    exact reads_number.mpr (h0 ▸ hc)
  · split
    · rename_i h1
      rw [hc.isOne_iff.mp h1.1, one_mul]
      exact reads_collect_product hs
    · rw [← List.prod_cons]
      exact reads_collect_product (.cons (reads_number.mpr hc) hs)

theorem Reads.add (ha : Reads ρ a p) (hb : Reads ρ b q) (hm : AllExact (Made.add a b)) :
    Reads ρ (add a b) (p + q) := by
  obtain ⟨ps, hps, rfl⟩ := ha.terms
  obtain ⟨qs, hqs, rfl⟩ := hb.terms
  rw [← List.sum_append]
  exact .ofTerms (List.rel_append hps hqs) hm

theorem Reads.mul (ha : Reads ρ a p) (hb : Reads ρ b q) (hm : AllExact (Made.mul a b)) :
    Reads ρ (mul a b) (p * q) := by
  obtain ⟨ps, hps, rfl⟩ := ha.factors
  obtain ⟨qs, hqs, rfl⟩ := hb.factors
  rw [← List.prod_append]
  exact .ofFactors (List.rel_append hps hqs) hm

theorem Reads.neg (ha : Reads ρ a p) (hm : AllExact (Made.neg a)) : Reads ρ (neg a) (-p) := by
  rw [← neg_one_mul]
  refine .mul (reads_number.mpr ?_) ha hm
  exact_mod_cast Number.is_ofInt (-1)

theorem Reads.sub (ha : Reads ρ a p) (hb : Reads ρ b q) (hm : AllExact (Made.sub a b)) :
    Reads ρ (sub a b) (p - q) := by
  obtain ⟨hn, hs⟩ := hm.append
  rw [sub_eq_add_neg]
  exact ha.add (hb.neg hn) hs

/-! ## Powers and quotients -/

theorem power?_eq_some : Exact.power? p q = some r ↔
    q.den = 1 ∧ ¬ (p = 0 ∧ q < 0) ∧ p ^ q.num = r := by
  unfold Exact.power?
  split
  · rename_i h
    rw [Option.some.injEq]
    exact ⟨fun he => ⟨h.1, h.2, he⟩, fun he => he.2.2⟩
  · rename_i h
    simp only [reduceCtorEq, false_iff]
    exact fun he => h ⟨he.1, he.2.1⟩

/-- What is left of a power after the exponents zero and one and powers of numbers. -/
theorem Reads.powRest (ha : Reads ρ a p) (hb : Reads ρ b q) (h : Exact.power? p q = some r) :
    Reads ρ (if a.asNumber?.any Number.isOne then one else .power a b) r := by
  split
  · rename_i h1
    obtain ⟨n, hn, h1⟩ := (Option.any_eq_true ..).mp h1
    obtain rfl := asNumber?_eq_some.mp hn
    obtain ⟨-, -, rfl⟩ := power?_eq_some.mp h
    rw [(reads_number.mp ha).isOne_iff.mp h1, one_zpow]
    exact reads_one
  · exact .power ha hb h

theorem Reads.pow (ha : Reads ρ a p) (hb : Reads ρ b q) (h : Exact.power? p q = some r)
    (hm : AllExact (Made.pow a b)) : Reads ρ (pow a b) r := by
  have hrest := ha.powRest hb h
  obtain ⟨hd, hdef, hr⟩ := power?_eq_some.mp h
  cases he : b.asNumber? with
  | none =>
    rw [Value.pow, he]
    exact hrest
  | some e =>
    obtain rfl := asNumber?_eq_some.mp he
    have hq := reads_number.mp hb
    rw [Value.pow, he]
    simp only [Option.bind_eq_bind, Option.bind_some]
    by_cases h0 : e.isZero = true
    · rw [if_pos h0]
      rw [hq.isZero_iff.mp h0, Rat.num_zero, zpow_zero] at hr
      rw [← hr]
      exact reads_one
    rw [if_neg h0]
    by_cases h1 : e.isOne = true
    · rw [if_pos h1]
      rw [hq.isOne_iff.mp h1, Rat.num_one, zpow_one] at hr
      rw [← hr]
      exact ha
    rw [if_neg h1]
    cases hn : a.asNumber? with
    | none =>
      rw [hn] at hrest
      exact hrest
    | some n =>
      obtain rfl := asNumber?_eq_some.mp hn
      have hp := reads_number.mp ha
      rw [Option.bind_some]
      cases hpow : n.pow? e with
      | some v =>
        have hv : v.isExact = true := hm v (by
          rw [Made.pow, hn, he]
          dsimp only
          rw [if_neg (by simp [h0, h1]), hpow]
          exact List.mem_cons_self)
        rw [← hr]
        exact reads_number.mpr (hp.pow hq hd hpow hv)
      | none =>
        dsimp only
        rw [if_neg]
        · exact hrest
        · rw [Bool.and_eq_true, hp.isZero_iff, hq.isNegative_iff]
          exact hdef

theorem Reads.div (ha : Reads ρ a p) (hb : Reads ρ b q) (h : Exact.quotient? p q = some r)
    (hm : AllExact (Made.div a b)) : Reads ρ (div a b) r := by
  have hq : q ≠ 0 := by
    rintro rfl
    cases h
  have hr : p / q = r := by
    rw [Exact.quotient?, if_neg hq] at h
    exact Option.some.inj h
  cases hd : b.asNumber? with
  | none =>
    rw [Made.div, hd] at hm
    obtain ⟨hm₁, hm₂⟩ := hm.append
    rw [Value.div, hd, ← hr, div_eq_mul_inv]
    have hminus : Reads ρ (int (-1)) (-1) := by
      refine reads_number.mpr ?_
      exact_mod_cast Number.is_ofInt (-1)
    refine ha.mul (hb.pow hminus (power?_eq_some.mpr ⟨rfl, fun h => hq h.1, ?_⟩) hm₁) hm₂
    exact zpow_neg_one q
  | some d =>
    obtain rfl := asNumber?_eq_some.mp hd
    have hb := reads_number.mp hb
    obtain ⟨inverse, hinv⟩ := hb.exists_div (a := Number.one) hq
    cases hn : a.asNumber? with
    | some n =>
      obtain rfl := asNumber?_eq_some.mp hn
      obtain ⟨v, hv⟩ := hb.exists_div (a := n) hq
      rw [Made.div, hd, hn] at hm
      dsimp only at hm
      rw [hv] at hm
      have hv' : v.isExact = true := hm v List.mem_cons_self
      rw [Value.div, hd, hn]
      dsimp only
      rw [hinv]
      dsimp only
      rw [hv, ← hr]
      exact reads_number.mpr ((reads_number.mp ha).div hb hv hv')
    | none =>
      rw [Made.div, hd, hn] at hm
      dsimp only at hm
      rw [hinv] at hm
      have hone : Number.one.Is 1 := Number.is_ofInt 1
      have hi := hone.div hb hinv (hm inverse List.mem_cons_self)
      rw [Value.div, hd, hn]
      dsimp only
      rw [hinv, ← hr, div_eq_mul_one_div]
      exact ha.mul (reads_number.mpr hi) fun n hn => hm n (List.mem_cons_of_mem _ hn)

/-! ## Remainders, factorials and absolute values -/

theorem Reads.mod (ha : Reads ρ a p) (hb : Reads ρ b q) (h : Exact.remainder? p q = some r)
    (hm : AllExact (Made.mod a b)) : Reads ρ (mod a b) r := by
  have hrest := ha.remainder hb h
  have hq : q ≠ 0 := by
    rintro rfl
    cases h
  have hr : p - q * ⌊p / q⌋ = r := by
    rw [Exact.remainder?, if_neg hq] at h
    exact Option.some.inj h
  unfold Value.mod
  cases hx : a.asNumber? with
  | none => exact hrest
  | some x =>
    cases hy : b.asNumber? with
    | none => exact hrest
    | some y =>
      obtain rfl := asNumber?_eq_some.mp hx
      obtain rfl := asNumber?_eq_some.mp hy
      have hb := reads_number.mp hb
      obtain ⟨v, hv⟩ := hb.exists_rem (a := x) hq
      rw [Made.mod, hx, hy] at hm
      dsimp only at hm
      rw [hv] at hm
      have hv' : v.isExact = true := hm v List.mem_cons_self
      simp only [Option.bind_eq_bind, Option.bind_some, hv]
      rw [← hr]
      exact reads_number.mpr ((reads_number.mp ha).rem hb hv hv')

theorem Reads.fact (ha : Reads ρ a p) (h : Exact.factorial? p = some r)
    (hm : AllExact (Made.fact a)) : Reads ρ (fact a) r := by
  have hrest := ha.factorial h
  unfold Value.fact
  split
  · rename_i n
    have hp := reads_number.mp ha
    split
    · rename_i v hv
      have hv' : v.isExact = true := hm v (by rw [Made.fact, hv]; exact List.mem_cons_self)
      obtain ⟨he, hi⟩ := hp.factorial hv hv'
      rw [h] at he
      rw [Option.some.inj he]
      exact reads_number.mpr hi
    · rw [if_neg]
      · exact hrest
      · rw [Bool.and_eq_true, hp.isNegative_iff]
        rintro ⟨-, hneg⟩
        unfold Exact.factorial? at h
        split at h
        · exact absurd hneg (not_lt.mpr (by tauto))
        · cases h
  · exact hrest

theorem Reads.abs (ha : Reads ρ a p) (hm : AllExact (Made.abs a)) : Reads ρ a.abs |p| := by
  unfold Value.abs
  split
  · rename_i n
    exact reads_number.mpr ((reads_number.mp ha).abs (hm _ List.mem_cons_self))
  · -- an absolute value is its own
    obtain ⟨h, hl⟩ := ha
    rw [rational?] at h
    obtain ⟨s, hs, rfl⟩ := Option.map_eq_some_iff.mp h
    rw [abs_abs]
    exact Reads.absolute ⟨hs, hl⟩
  · exact ha.absolute

end Formula.Value
