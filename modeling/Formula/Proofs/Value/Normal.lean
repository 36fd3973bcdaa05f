import Formula.Proofs.LR.Grammar
import Formula.Proofs.Number.Normal
import Formula.Proofs.Value.Exact
import Formula.Value.Substitution

/-!
# The normal form of values

`InForm` says of one node what the operations on values keep up: sums and products are flat, their numbers are folded
into one that stands at the end or in front, powers with exponents zero and one are gone, and so on. A value is `Normal`
when it is in form and so are all its subvalues, the bodies of its functions among them.

Every operation takes normal values to normal ones. For sums and products this is one argument each, about a row of
terms or factors (`Normal.ofTerms`, `Normal.ofFactors`). Substitution builds a value anew by these operations, so that
it is by recursion on the value (`normal_replaceWith`), given that big operators are built in normal form; these in turn
fold by substitution, on a depth that decreases (`normal_foldAt`).
-/

namespace Formula

/-- The bodies of the definitions that a function is put together from. -/
def Callable.bodies {α : Type} : Callable α → List α
  | builtin .. => []
  | defined _ _ body => [body]
  | composed outer inner => outer.bodies ++ inner.bodies

namespace Value

/-! ## The form -/

/-- The direct subvalues. -/
def parts : Value → List Value
  | .number _ | .bool _ | .symbol _ | .constant _ | .set _ => []
  | .sum vs | .product vs | .application _ vs => vs
  | .power a b | .remainder a b | .relation _ a b | .interval a b _ _ | .intersection a b | .limit _ a b => [a, b]
  | .factorial a | .absolute a => [a]
  | .bigSum _ a b c | .bigProduct _ a b c => [a, b, c]
  | .function f => f.bodies

/-- Terms stand in a row of at least two. A number is the last of them, so that there is one at most, and not zero. -/
structure SumForm (ts : List Value) : Prop where
  two_le : 2 ≤ ts.length
  flat : ∀ t ∈ ts, ∀ us, t ≠ .sum us
  number : ∀ i n, ts[i]? = some (.number n) → i + 1 = ts.length ∧ n.isZero = false

/-- Factors stand in a row of at least two. A number is the first of them, so that there is one at most, and not one;
it may be zero in front of an infinity. -/
structure ProductForm (fs : List Value) : Prop where
  two_le : 2 ≤ fs.length
  flat : ∀ f ∈ fs, ∀ gs, f ≠ .product gs
  number : ∀ i n, fs[i]? = some (.number n) →
    i = 0 ∧ n.isOne = false ∧ (n.isZero = true → fs.any isInfinite = true)

/-- What the operations keep up at a node. -/
def InForm : Value → Prop
  | .number n => n.Normal
  | .sum ts => SumForm ts
  | .product fs => ProductForm fs
  | .power _ exponent => ∀ n, exponent = .number n → n.isZero = false ∧ n.isOne = false
  | .absolute a => (∀ n, a ≠ .number n) ∧ ∀ b, a ≠ .absolute b
  | .limit var _ body => body.containsSymbol var = true
  | _ => True

/-- The value and all its subvalues are in form. -/
inductive Normal : Value → Prop where
  | intro {v : Value} (hv : v.InForm) (h : ∀ w ∈ v.parts, Normal w) : Normal v

end Value

/-- The bodies of the function are normal. -/
def Callable.Normal (f : Function) : Prop := ∀ body ∈ f.bodies, body.Normal

namespace Value

variable {a b c v : Value}

namespace Normal

theorem node (h : v.Normal) : v.InForm := by
  cases h
  assumption

theorem part (h : v.Normal) {w : Value} (hw : w ∈ v.parts) : w.Normal := by
  cases h with
  | intro _ h => exact h w hw

theorem first {ws : List Value} (h : v.Normal) (hv : v.parts = a :: ws) : a.Normal :=
  h.part (hv ▸ List.mem_cons_self)

theorem second {ws : List Value} (h : v.Normal) (hv : v.parts = a :: b :: ws) : b.Normal :=
  h.part (hv ▸ List.mem_cons_of_mem _ List.mem_cons_self)

theorem third {ws : List Value} (h : v.Normal) (hv : v.parts = a :: b :: c :: ws) : c.Normal :=
  h.part (hv ▸ List.mem_cons_of_mem _ (List.mem_cons_of_mem _ List.mem_cons_self))

theorem number {n : Number} (h : n.Normal) : (Value.number n).Normal := .intro h fun _ hw => nomatch hw

theorem symbol (name : String) : (Value.symbol name).Normal := .intro trivial fun _ hw => nomatch hw

theorem constant (c : Constant) : (Value.constant c).Normal := .intro trivial fun _ hw => nomatch hw

theorem set (s : NumberSet) : (Value.set s).Normal := .intro trivial fun _ hw => nomatch hw

theorem function {f : Function} : (Value.function f).Normal ↔ f.Normal :=
  ⟨fun h _ hb => h.part hb, fun h => .intro trivial h⟩

theorem int {n : Int} (h : Int128.InRange n) : (Value.int n).Normal := .number (Number.normal_ofInt h)

theorem zero : Value.zero.Normal := .int (by decide)

theorem one : Value.one.Normal := .int (by decide)

end Normal

theorem normal_foldl {op : Number → Number → Number} (hop : ∀ a b, (op a b).Normal) {a : Number} (ha : a.Normal)
    (ns : List Number) : (ns.foldl op a).Normal := by
  induction ns generalizing a with
  | nil => exact ha
  | cons n ns ih => exact ih (hop a n)

theorem mem_symbolic {vs : List Value} : v ∈ symbolic vs ↔ v ∈ vs ∧ ∀ n, v ≠ .number n := by
  rw [symbolic, List.mem_filter, Option.isNone_iff_eq_none, Option.eq_none_iff_forall_not_mem]
  simp only [Option.mem_def, asNumber?_eq_some, ne_eq]

/-- A row stands for its one item, or is wrapped. -/
theorem Normal.collect {wrap : List Value → Value} {vs : List Value} (hne : vs ≠ []) (h : ∀ v ∈ vs, v.Normal)
    (hwrap : 2 ≤ vs.length → (wrap vs).Normal) : (collect wrap vs).Normal := by
  match vs with
  | [] => exact absurd rfl hne
  | [v] => exact h v List.mem_cons_self
  | _ :: _ :: _ => exact hwrap (Nat.le_add_left 2 _)

/-! ## Sums and products -/

theorem Normal.terms (h : v.Normal) : ∀ t ∈ v.terms, t.Normal ∧ ∀ us, t ≠ .sum us := by
  unfold Value.terms
  split
  · exact fun t ht => ⟨h.part ht, h.node.flat t ht⟩
  · rename_i hne
    intro t ht
    obtain rfl := List.mem_singleton.mp ht
    exact ⟨h, hne⟩

theorem Normal.factors (h : v.Normal) : ∀ f ∈ v.factors, f.Normal ∧ ∀ gs, f ≠ .product gs := by
  unfold Value.factors
  split
  · exact fun f hf => ⟨h.part hf, h.node.flat f hf⟩
  · rename_i hne
    intro f hf
    obtain rfl := List.mem_singleton.mp hf
    exact ⟨h, hne⟩

/-- A row of terms that are no sums adds up to a normal value. -/
theorem Normal.ofTerms {ts : List Value} (h : ∀ t ∈ ts, t.Normal ∧ ∀ us, t ≠ .sum us) : (ofTerms ts).Normal := by
  have hconstant : ((numbers ts).foldl Number.add .zero).Normal :=
    normal_foldl Number.Normal.add (Number.normal_ofInt (by decide)) _
  have hrest : ∀ t ∈ symbolic ts, t.Normal ∧ (∀ us, t ≠ .sum us) ∧ ∀ n, t ≠ .number n := fun t ht =>
    let ⟨hm, hn⟩ := mem_symbolic.mp ht
    ⟨(h t hm).1, (h t hm).2, hn⟩
  unfold Value.ofTerms
  generalize (numbers ts).foldl Number.add .zero = constant at hconstant
  generalize symbolic ts = rest at hrest
  dsimp only
  split
  · rename_i hc
    refine .collect hc.2 (fun t ht => (hrest t ht).1) fun hlen => .intro ⟨hlen, fun t ht => (hrest t ht).2.1, ?_⟩ ?_
    · exact fun i n hi => absurd rfl ((hrest _ (List.mem_of_getElem? hi)).2.2 n)
    · exact fun t ht => (hrest t ht).1
  · rename_i hc
    have hall : ∀ t ∈ rest ++ [.number constant], t.Normal ∧ ∀ us, t ≠ .sum us := by
      intro t ht
      rcases List.mem_append.mp ht with ht | ht
      · exact ⟨(hrest t ht).1, (hrest t ht).2.1⟩
      · obtain rfl := List.mem_singleton.mp ht
        exact ⟨.number hconstant, fun _ ht => nomatch ht⟩
    refine .collect (by simp) (fun t ht => (hall t ht).1) fun hlen => .intro ⟨hlen, fun t ht => (hall t ht).2, ?_⟩
      fun t ht => (hall t ht).1
    intro i n hi
    rw [List.length_append, List.length_singleton] at hlen ⊢
    rcases Nat.lt_trichotomy i rest.length with hlt | rfl | hlt
    · rw [List.getElem?_append_left hlt] at hi
      exact absurd rfl ((hrest _ (List.mem_of_getElem? hi)).2.2 n)
    · rw [List.getElem?_concat_length] at hi
      cases hi
      refine ⟨rfl, Bool.eq_false_iff.mpr fun hz => hc ⟨hz, ?_⟩⟩
      rintro rfl
      exact absurd hlen (by decide)
    · rw [List.getElem?_eq_none (by simp; omega)] at hi
      cases hi

/-- A row of factors that are no products multiplies up to a normal value. -/
theorem Normal.ofFactors {fs : List Value} (h : ∀ f ∈ fs, f.Normal ∧ ∀ gs, f ≠ .product gs) :
    (ofFactors fs).Normal := by
  have hcoefficient : ((numbers fs).foldl Number.mul .one).Normal :=
    normal_foldl Number.Normal.mul (Number.normal_ofInt (by decide)) _
  have hrest : ∀ f ∈ symbolic fs, f.Normal ∧ (∀ gs, f ≠ .product gs) ∧ ∀ n, f ≠ .number n := fun f hf =>
    let ⟨hm, hn⟩ := mem_symbolic.mp hf
    ⟨(h f hm).1, (h f hm).2, hn⟩
  unfold Value.ofFactors
  generalize (numbers fs).foldl Number.mul .one = coefficient at hcoefficient
  generalize symbolic fs = rest at hrest
  dsimp only
  split
  · exact .number hcoefficient
  rename_i hz
  split
  · rename_i hc
    refine .collect hc.2 (fun f hf => (hrest f hf).1) fun hlen => .intro ⟨hlen, fun f hf => (hrest f hf).2.1, ?_⟩ ?_
    · exact fun i n hi => absurd rfl ((hrest _ (List.mem_of_getElem? hi)).2.2 n)
    · exact fun f hf => (hrest f hf).1
  · rename_i hc
    have hall : ∀ f ∈ Value.number coefficient :: rest, f.Normal ∧ ∀ gs, f ≠ .product gs := by
      intro f hf
      rcases List.mem_cons.mp hf with rfl | hf
      · exact ⟨.number hcoefficient, fun _ hf => nomatch hf⟩
      · exact ⟨(hrest f hf).1, (hrest f hf).2.1⟩
    refine .collect (by simp) (fun f hf => (hall f hf).1) fun hlen => .intro ⟨hlen, fun f hf => (hall f hf).2, ?_⟩
      fun f hf => (hall f hf).1
    intro i n hi
    cases i with
    | zero =>
      cases hi
      refine ⟨rfl, Bool.eq_false_iff.mpr fun h1 => hc ⟨h1, ?_⟩, fun h0 => ?_⟩
      · rintro rfl
        exact absurd hlen (Nat.not_succ_le_self 1)
      · rw [List.any_cons, Bool.or_eq_true]
        exact .inr (by_contra fun hinf => hz ⟨h0, hinf⟩)
    | succ i => exact absurd rfl ((hrest _ (List.mem_of_getElem? hi)).2.2 n)

namespace Normal

theorem add (ha : a.Normal) (hb : b.Normal) : (add a b).Normal :=
  .ofTerms (List.forall_mem_append.mpr ⟨ha.terms, hb.terms⟩)

theorem mul (ha : a.Normal) (hb : b.Normal) : (mul a b).Normal :=
  .ofFactors (List.forall_mem_append.mpr ⟨ha.factors, hb.factors⟩)

theorem neg (ha : a.Normal) : a.neg.Normal := .mul (.int (by decide)) ha

theorem sub (ha : a.Normal) (hb : b.Normal) : (sub a b).Normal := ha.add hb.neg

/-! ## The other operations -/

theorem pow (ha : a.Normal) (hb : b.Normal) : (pow a b).Normal := by
  have hrest : (∀ n, b = .number n → n.isZero = false ∧ n.isOne = false) →
      (if a.asNumber?.any Number.isOne then Value.one else .power a b).Normal := by
    intro hform
    split
    · exact .one
    · exact .intro hform (List.forall_mem_cons.mpr ⟨ha, List.forall_mem_singleton.mpr hb⟩)
  unfold Value.pow
  cases he : b.asNumber? with
  | none =>
    refine hrest fun n hn => ?_
    rw [asNumber?_eq_some.mpr hn] at he
    cases he
  | some e =>
    obtain rfl := asNumber?_eq_some.mp he
    simp only [Option.bind_eq_bind, Option.bind_some]
    by_cases h0 : e.isZero = true
    · rw [if_pos h0]
      exact .one
    rw [if_neg h0]
    by_cases h1 : e.isOne = true
    · rw [if_pos h1]
      exact ha
    rw [if_neg h1]
    have hrest := hrest fun n hn => by
      cases hn
      exact ⟨Bool.eq_false_iff.mpr h0, Bool.eq_false_iff.mpr h1⟩
    cases hb : a.asNumber? with
    | none => rwa [hb] at hrest
    | some n =>
      rw [hb] at hrest
      simp only [Option.bind_some]
      cases hr : n.pow? e with
      | some r => exact .number (Number.Normal.pow? hr)
      | none =>
        dsimp only
        split
        · rename_i v hv
          obtain ⟨-, hv⟩ := Option.ite_none_right_eq_some.mp hv
          cases hv
          exact .constant _
        · exact hrest

theorem div (ha : a.Normal) (hb : b.Normal) : (div a b).Normal := by
  unfold Value.div
  cases b.asNumber? with
  | none => exact ha.mul (hb.pow (.int (by decide)))
  | some d =>
    dsimp only
    cases hi : Number.one.div? d with
    | none => exact .constant _
    | some inverse =>
      cases a.asNumber? with
      | none => exact ha.mul (.number (Number.Normal.div? hi))
      | some n =>
        dsimp only
        cases hq : n.div? d with
        | none => exact .constant _
        | some q => exact .number (Number.Normal.div? hq)

theorem mod (ha : a.Normal) (hb : b.Normal) : (mod a b).Normal := by
  unfold Value.mod
  dsimp only
  split
  · rename_i r hr
    obtain ⟨x, -, hr⟩ := Option.bind_eq_some_iff.mp hr
    obtain ⟨y, -, hr⟩ := Option.bind_eq_some_iff.mp hr
    exact .number (Number.Normal.rem? hr)
  · exact .intro trivial (List.forall_mem_cons.mpr ⟨ha, List.forall_mem_singleton.mpr hb⟩)

theorem fact (ha : a.Normal) : a.fact.Normal := by
  have hrest : (Value.factorial a).Normal := .intro trivial (List.forall_mem_singleton.mpr ha)
  unfold Value.fact
  split
  · rename_i n
    cases hr : n.factorial? with
    | some r => exact .number (Number.Normal.factorial? hr)
    | none =>
      dsimp only
      split
      · exact .constant _
      · exact hrest
  · exact hrest

theorem abs (ha : a.Normal) : a.abs.Normal := by
  unfold Value.abs
  split
  · exact .number (Number.Normal.abs ha.node)
  · exact ha
  · exact .intro ⟨‹_›, ‹_›⟩ (List.forall_mem_singleton.mpr ha)

theorem apply (name : String) {args : List Value} (h : ∀ v ∈ args, v.Normal) : (apply name args).Normal := by
  unfold Value.apply
  dsimp only
  split
  · exact (h _ List.mem_cons_self).abs
  · exact .intro trivial h
  · split
    · exact .number trivial
    · exact .intro trivial h

theorem relate (op : Relation) (ha : a.Normal) (hb : b.Normal) : (relate op a b).Normal := by
  unfold Value.relate
  split
  · exact .intro trivial fun _ hw => nomatch hw
  · exact .intro trivial (List.forall_mem_cons.mpr ⟨ha, List.forall_mem_singleton.mpr hb⟩)

theorem between (ha : a.Normal) (hb : b.Normal) (leftOpen rightOpen : Bool) :
    (between a b leftOpen rightOpen).Normal :=
  .intro trivial (List.forall_mem_cons.mpr ⟨ha, List.forall_mem_singleton.mpr hb⟩)

theorem restrict (ha : a.Normal) (hb : b.Normal) : (restrict a b).Normal := by
  unfold Value.restrict
  split
  · exact hb
  · exact hb
  · exact .intro trivial (List.forall_mem_cons.mpr ⟨ha, List.forall_mem_singleton.mpr hb⟩)

theorem limitOf (var : String) (ha : a.Normal) (hb : b.Normal) : (limitOf var a b).Normal := by
  unfold Value.limitOf
  split
  · exact .intro ‹_› (List.forall_mem_cons.mpr ⟨ha, List.forall_mem_singleton.mpr hb⟩)
  · exact hb

end Normal

/-! ## Substitution and big operators -/

/-- The way of folding builds normal values. -/
def Folding.Normal (fold : Folding) : Prop :=
  ∀ {op var a b c}, a.Normal → b.Normal → c.Normal → (fold op var a b c).Normal

theorem normal_combine {α : Type} {op : Value → Value → Value} (hop : ∀ {a b}, a.Normal → b.Normal → (op a b).Normal)
    {f : α → Value} {xs : List α} (h : ∀ x ∈ xs, (f x).Normal) (ha : a.Normal) :
    (xs.foldl (fun acc x => op acc (f x)) a).Normal := by
  induction xs generalizing a with
  | nil => exact ha
  | cons x xs ih =>
    exact ih (fun x hx => h x (List.mem_cons_of_mem _ hx)) (hop ha (h x List.mem_cons_self))

section

variable {fold : Folding}

theorem normal_replacement? {pairs : List (Value × Value)} (hpairs : ∀ p ∈ pairs, p.2.Normal) {w : Value}
    (h : replacement? pairs v = some w) : w.Normal := by
  obtain ⟨p, hp, rfl⟩ := Option.map_eq_some_iff.mp h
  exact hpairs p (List.mem_of_find?_eq_some hp)

theorem normal_withoutSymbol {pairs : List (Value × Value)} (hpairs : ∀ p ∈ pairs, p.2.Normal) (var : String) :
    ∀ p ∈ withoutSymbol var pairs, p.2.Normal := fun p hp => hpairs p (List.mem_of_mem_filter hp)

mutual

/-- Replacing by normal values keeps a value normal. -/
theorem normal_replaceWith (hfold : Folding.Normal fold) {pairs : List (Value × Value)}
    (hpairs : ∀ p ∈ pairs, p.2.Normal) : (v : Value) → v.Normal → (replaceWith fold pairs v).Normal := by
  intro v h
  unfold replaceWith
  cases hr : replacement? pairs v with
  | some w => exact normal_replacement? hpairs hr
  | none =>
    dsimp only
    match v, h with
    | .number _, h | .bool _, h | .symbol _, h | .constant _, h | .set _, h | .function _, h => exact h
    | .sum ts, h =>
      have hts := normal_replaceList hfold hpairs ts fun _ => h.part
      exact normal_combine (f := id) Normal.add hts .zero
    | .product fs, h =>
      have hfs := normal_replaceList hfold hpairs fs fun _ => h.part
      exact normal_combine (f := id) Normal.mul hfs .one
    | .power a b, h =>
      have ha := normal_replaceWith hfold hpairs a (h.first rfl)
      exact ha.pow (normal_replaceWith hfold hpairs b (h.second rfl))
    | .remainder a b, h =>
      have ha := normal_replaceWith hfold hpairs a (h.first rfl)
      exact ha.mod (normal_replaceWith hfold hpairs b (h.second rfl))
    | .factorial a, h => exact (normal_replaceWith hfold hpairs a (h.first rfl)).fact
    | .absolute a, h => exact (normal_replaceWith hfold hpairs a (h.first rfl)).abs
    | .application name args, h => exact .apply name (normal_replaceList hfold hpairs args fun _ => h.part)
    | .relation op a b, h =>
      have ha := normal_replaceWith hfold hpairs a (h.first rfl)
      exact .relate op ha (normal_replaceWith hfold hpairs b (h.second rfl))
    | .interval a b l r, h =>
      have ha := normal_replaceWith hfold hpairs a (h.first rfl)
      exact .between ha (normal_replaceWith hfold hpairs b (h.second rfl)) l r
    | .intersection a b, h =>
      have ha := normal_replaceWith hfold hpairs a (h.first rfl)
      exact .restrict ha (normal_replaceWith hfold hpairs b (h.second rfl))
    | .limit var a b, h =>
      have hinner := normal_withoutSymbol hpairs var
      have ha := normal_replaceWith hfold hpairs a (h.first rfl)
      exact .limitOf var ha (normal_replaceWith hfold hinner b (h.second rfl))
    | .bigSum var a b c, h | .bigProduct var a b c, h =>
      have hinner := normal_withoutSymbol hpairs var
      have ha := normal_replaceWith hfold hpairs a (h.first rfl)
      have hb := normal_replaceWith hfold hpairs b (h.second rfl)
      exact hfold ha hb (normal_replaceWith hfold hinner c (h.third rfl))

theorem normal_replaceList (hfold : Folding.Normal fold) {pairs : List (Value × Value)}
    (hpairs : ∀ p ∈ pairs, p.2.Normal) : (vs : List Value) → (∀ v ∈ vs, v.Normal) →
      ∀ w ∈ replaceList fold pairs vs, w.Normal
  | [], _ => by simp [replaceList]
  | v :: vs, h => by
    rw [replaceList]
    exact List.forall_mem_cons.mpr ⟨normal_replaceWith hfold hpairs v (h v List.mem_cons_self),
      normal_replaceList hfold hpairs vs fun v hv => h v (List.mem_cons_of_mem _ hv)⟩

end

end

/-- The integers of a range between two numbers lie in the range of numbers. -/
theorem inRange_of_range? {lower upper : Value} (hl : lower.Normal) (hu : upper.Normal) {ks : List Int}
    (h : range? lower upper = some ks) : ∀ k ∈ ks, Int128.InRange k := by
  obtain ⟨n, hn, h⟩ := Option.bind_eq_some_iff.mp h
  obtain ⟨lo, hlo, h⟩ := Option.bind_eq_some_iff.mp h
  obtain ⟨m, hm, h⟩ := Option.bind_eq_some_iff.mp h
  obtain ⟨hi, hhi, h⟩ := Option.bind_eq_some_iff.mp h
  obtain ⟨d, -, h⟩ := Option.bind_eq_some_iff.mp h
  obtain ⟨-, h⟩ := Option.ite_none_right_eq_some.mp h
  cases h
  obtain rfl := asNumber?_eq_some.mp hn
  obtain rfl := asNumber?_eq_some.mp hm
  have hlo := Number.Normal.toInt? hl.node hlo
  have hhi := Number.Normal.toInt? hu.node hhi
  intro k hk
  obtain ⟨j, hj, rfl⟩ := List.mem_map.mp hk
  have hj := List.mem_range.mp hj
  simp only [Int128.InRange, Int128.least, Int128.greatest] at hlo hhi ⊢
  omega

theorem Normal.node_big {op : BigOperator} (var : String) (ha : a.Normal) (hb : b.Normal) (hc : c.Normal) :
    (op.node var a b c).Normal := by
  have hparts : ∀ w ∈ [a, b, c], w.Normal :=
    List.forall_mem_cons.mpr ⟨ha, List.forall_mem_cons.mpr ⟨hb, List.forall_mem_singleton.mpr hc⟩⟩
  cases op <;> exact .intro trivial hparts

theorem Normal.combine {op : BigOperator} (ha : a.Normal) (hb : b.Normal) : (op.combine a b).Normal := by
  cases op
  · exact ha.add hb
  · exact ha.mul hb

/-- Big operators are built in normal form, however deep they are folded. -/
theorem normal_foldAt (depth : Nat) : Folding.Normal (foldAt depth) := by
  induction depth with
  | zero =>
    intro op var a b c ha hb hc
    exact ha.node_big var hb hc
  | succ depth ih =>
    intro op var a b c ha hb hc
    unfold foldAt
    cases hr : range? a b with
    | none => exact ha.node_big var hb hc
    | some ks =>
      refine normal_combine Normal.combine (fun k hk => ?_) (by cases op; exacts [.zero, .one])
      exact normal_replaceWith ih (List.forall_mem_singleton.mpr (.int (inRange_of_range? ha hb hr k hk))) c hc

theorem Normal.big (op : BigOperator) (var : String) (ha : a.Normal) (hb : b.Normal) (hc : c.Normal) :
    (big op var a b c).Normal := normal_foldAt _ ha hb hc

theorem Normal.replaceAll (h : v.Normal) {pairs : List (Value × Value)} (hpairs : ∀ p ∈ pairs, p.2.Normal) :
    (v.replaceAll pairs).Normal :=
  normal_replaceWith (fun ha hb hc => ha.big _ _ hb hc) hpairs v h

end Value

/-! ## Calls -/

namespace Callable.Normal

variable {f g : Function}

theorem composed (hf : f.Normal) (hg : g.Normal) : (Callable.composed f g).Normal :=
  List.forall_mem_append.mpr ⟨hf, hg⟩

/-- The value of a function with normal bodies at normal arguments is normal. -/
theorem call (hf : f.Normal) {args : List Value} (hargs : ∀ a ∈ args, a.Normal) {v : Value}
    (h : f.call args = .ok v) : v.Normal := by
  induction f generalizing args v with
  | builtin name =>
    obtain ⟨⟨⟩, -, h⟩ := LR.Grammar.bind_eq_ok h
    cases h
    exact .apply name hargs
  | defined name params body =>
    obtain ⟨⟨⟩, -, h⟩ := LR.Grammar.bind_eq_ok h
    cases h
    refine (hf body List.mem_cons_self).replaceAll fun p hp => hargs p.2 ?_
    exact (List.of_mem_zip hp).2
  | composed outer inner ihouter ihinner =>
    obtain ⟨⟨⟩, -, h⟩ := LR.Grammar.bind_eq_ok h
    obtain ⟨w, hw, h⟩ := LR.Grammar.bind_eq_ok h
    have hbodies := List.forall_mem_append.mp hf
    exact ihouter hbodies.1 (List.forall_mem_singleton.mpr (ihinner hbodies.2 hargs hw)) h

end Callable.Normal

end Formula
