import Formula.Proofs.Number.Neutral
import Formula.Proofs.Value.Depth
import Formula.Proofs.Value.Rows
import Formula.Proofs.Value.Substitution

/-!
# Grouping does not matter

A normal value whose terms or factors have fractions for numbers, and no infinity among them, is a row of symbolic
items and a rational number: `form` makes the value from the two, and `split` finds them again (`form_split`). Sums and
products append the rows and combine the numbers (`Stands.combine`), as long as no number on the way is a double, and
lists and rational numbers are associative. So how a sum or a product is grouped does not matter (`Grouping.value_eq`),
nor where a range is cut in two (`big_cut`).
-/

namespace Formula

open Value (AllExact)

namespace BigOperator

/-- The operator on numbers. -/
def onNumbers : BigOperator → Number → Number → Number
  | sum => Number.add
  | product => Number.mul

/-- The number of no items. -/
def start : BigOperator → Number
  | sum => .zero
  | product => .one

/-- The numbers that a row of items computes. -/
def partials (op : BigOperator) (vs : List Value) : List Number :=
  (Value.numbers vs).scanl op.onNumbers op.start

/-- The numbers that the operator computes of two values. -/
def made (op : BigOperator) (a b : Value) : List Number := op.partials (op.row a ++ op.row b)

/-- The operator on rational numbers. -/
def exact : BigOperator → ℚ → ℚ → ℚ
  | sum, p, q => p + q
  | product, p, q => p * q

def neutral : BigOperator → ℚ
  | sum => 0
  | product => 1

variable {op : BigOperator}

theorem exact_assoc (p q r : ℚ) : op.exact (op.exact p q) r = op.exact p (op.exact q r) := by
  cases op
  · exact add_assoc p q r
  · exact mul_assoc p q r

theorem neutral_exact (q : ℚ) : op.exact op.neutral q = q := by
  cases op
  · exact zero_add q
  · exact one_mul q

theorem exact_neutral (q : ℚ) : op.exact q op.neutral = q := by
  cases op
  · exact add_zero q
  · exact mul_one q

end BigOperator

namespace Value

variable {op : BigOperator} {a b c v : Value} {vs rest : List Value} {p q : ℚ}

/-! ## Rows and numbers -/

/-- The fraction of a rational number. -/
def ofRational (q : ℚ) : Value := .number (.ratio q.num q.den)

/-- The row of a value with the given symbolic items and the given number: the number is left out where it is neutral,
and zero leaves out the factors. -/
def formRow : BigOperator → List Value → ℚ → List Value
  | .sum, rest, q => if q = 0 ∧ rest ≠ [] then rest else rest ++ [ofRational q]
  | .product, rest, q => if q = 0 then [ofRational q] else if q = 1 ∧ rest ≠ [] then rest else ofRational q :: rest

/-- The value with the given symbolic items and the given number. -/
def form (op : BigOperator) (rest : List Value) (q : ℚ) : Value := collect op.wrap (formRow op rest q)

/-- A symbolic item: no number, no infinity, and no row of the operator itself. -/
structure Item (op : BigOperator) (v : Value) : Prop where
  symbolic : ∀ n, v ≠ .number n
  finite : v.isInfinite = false
  flat : ∀ us, v ≠ op.wrap us

theorem ofRational_flat (q : ℚ) (us : List Value) : ofRational q ≠ op.wrap us := by
  cases op <;> exact nofun

/-- The row has the symbolic items, and the number at its place unless it is neutral; or it is zero alone. -/
theorem formRow_cases (op : BigOperator) (rest : List Value) (q : ℚ) :
    (q = op.neutral ∧ rest ≠ [] ∧ formRow op rest q = rest) ∨
    formRow op rest q = rest ++ [ofRational q] ∨ formRow op rest q = ofRational q :: rest ∨
    (op = .product ∧ q = 0 ∧ formRow op rest q = [ofRational q]) := by
  cases op with
  | sum =>
    unfold formRow
    dsimp only
    split
    · rename_i h
      exact .inl ⟨h.1, h.2, rfl⟩
    · exact .inr (.inl rfl)
  | product =>
    unfold formRow
    dsimp only
    split
    · rename_i h
      exact .inr (.inr (.inr ⟨rfl, h, rfl⟩))
    · split
      · rename_i h
        exact .inl ⟨h.1, h.2, rfl⟩
      · exact .inr (.inr (.inl rfl))

theorem mem_formRow (h : v ∈ formRow op rest q) : v ∈ rest ∨ v = ofRational q := by
  rcases formRow_cases op rest q with ⟨-, -, he⟩ | he | he | ⟨-, -, he⟩ <;> rw [he] at h
  · exact .inl h
  · simpa using h
  · simpa [or_comm] using h
  · exact .inr (List.mem_singleton.mp h)

theorem formRow_ne_nil : formRow op rest q ≠ [] := by
  rcases formRow_cases op rest q with ⟨-, hne, he⟩ | he | he | ⟨-, -, he⟩ <;> rw [he]
  · exact hne
  · exact List.concat_ne_nil _ _
  · exact List.cons_ne_nil _ _
  · exact List.cons_ne_nil _ _

theorem row_form (h : ∀ v ∈ rest, Item op v) : op.row (form op rest q) = formRow op rest q := by
  refine row_collect formRow_ne_nil fun v hv => ?_
  rcases mem_formRow hv with hv | rfl
  · exact (h v hv).flat
  · exact ofRational_flat q

theorem Item.no_numbers (h : ∀ v ∈ rest, Item op v) (n : Number) : .number n ∉ rest := fun hn => (h _ hn).symbolic n rfl

/-- The symbolic items of the row, unless zero leaves them out. -/
theorem symbolic_formRow (h : ∀ v ∈ rest, Item op v) :
    symbolic (formRow op rest q) = rest ∨ op = .product ∧ q = 0 := by
  have hrest := (symbolic_of_no_numbers (Item.no_numbers h)).1
  rcases formRow_cases op rest q with ⟨-, -, he⟩ | he | he | ⟨hop, hq, -⟩
  · rw [he]
    exact .inl hrest
  · rw [he, symbolic_append, hrest]
    exact .inl (List.append_nil rest)
  · rw [he]
    exact .inl hrest
  · exact .inr ⟨hop, hq⟩

/-- The numbers of the row come to its number. -/
theorem numbers_formRow (h : ∀ v ∈ rest, Item op v) :
    ∃ qs, List.Forall₂ Number.Is (numbers (formRow op rest q)) qs ∧ ∀ p, qs.foldl op.exact p = op.exact p q := by
  have hrest := (symbolic_of_no_numbers (Item.no_numbers h)).2
  have hone : List.Forall₂ Number.Is [.ratio q.num q.den] [q] := .cons rfl .nil
  rcases formRow_cases op rest q with ⟨rfl, -, he⟩ | he | he | ⟨-, -, he⟩ <;> rw [he]
  · exact ⟨[], hrest ▸ .nil, fun p => (op.exact_neutral p).symm⟩
  · refine ⟨[q], ?_, fun p => rfl⟩
    rw [numbers_append, hrest]
    exact hone
  · refine ⟨[q], ?_, fun p => rfl⟩
    show List.Forall₂ _ (.ratio q.num q.den :: numbers rest) _
    rw [hrest]
    exact hone
  · exact ⟨[q], hone, fun p => rfl⟩

/-! ## Joining rows -/

/-- A row without infinities joins to the form of its symbolic items and the exact value of its numbers. -/
theorem join_eq_form {qs : List ℚ} (hn : List.Forall₂ Number.Is (numbers vs) qs) (hm : AllExact (op.partials vs))
    (hfin : ∀ v ∈ vs, v.isInfinite = false) :
    op.join vs = form op (symbolic vs) (qs.foldl op.exact op.neutral) := by
  cases op with
  | sum =>
    have hc : ((numbers vs).foldl Number.add .zero).Is (qs.foldl (BigOperator.exact .sum) 0) :=
      is_foldl Number.Is.add hn (Number.is_ofInt 0) hm
    have hz := hc.isZero_iff
    show ofTerms vs = form .sum (symbolic vs) (qs.foldl (BigOperator.exact .sum) 0)
    unfold ofTerms form formRow
    rw [hc] at hz ⊢
    simp only [hz]
    rfl
  | product =>
    have hc : ((numbers vs).foldl Number.mul .one).Is (qs.foldl (BigOperator.exact .product) 1) :=
      is_foldl Number.Is.mul hn (Number.is_ofInt 1) hm
    have hz := hc.isZero_iff
    have h1 := hc.isOne_iff
    have hany : (symbolic vs).any isInfinite = false := by
      rw [List.any_eq_false]
      exact fun v hv => Bool.not_eq_true _ ▸ hfin v (List.mem_of_mem_filter hv)
    show ofFactors vs = form .product (symbolic vs) (qs.foldl (BigOperator.exact .product) 1)
    unfold ofFactors form formRow
    rw [hc] at hz h1 ⊢
    simp only [hz, h1, hany, Bool.false_eq_true, not_false_eq_true, and_true]
    split <;> rfl

/-- The value is the form of a row of items and a number. -/
def Stands (op : BigOperator) (v : Value) (x : List Value × ℚ) : Prop :=
  (∀ w ∈ x.1, Item op w) ∧ v = form op x.1 x.2

/-- The rows appended, and the numbers combined. -/
def act (op : BigOperator) (x y : List Value × ℚ) : List Value × ℚ := (x.1 ++ y.1, op.exact x.2 y.2)

theorem finite_formRow (h : ∀ v ∈ rest, Item op v) : ∀ v ∈ formRow op rest q, v.isInfinite = false := by
  intro v hv
  rcases mem_formRow hv with hv | rfl
  · exact (h v hv).finite
  · rfl

theorem form_eq_of_zero {rest' : List Value} (h : q = 0) : form .product rest q = form .product rest' q := by
  subst h
  rfl

theorem Stands.combine {x y : List Value × ℚ} (ha : Stands op a x) (hb : Stands op b y)
    (hm : AllExact (op.made a b)) : Stands op (op.combine a b) (act op x y) := by
  obtain ⟨hx, rfl⟩ := ha
  obtain ⟨hy, rfl⟩ := hb
  refine ⟨List.forall_mem_append.mpr ⟨hx, hy⟩, ?_⟩
  rw [BigOperator.made, row_form hx, row_form hy] at hm
  rw [op.combine_eq, row_form hx, row_form hy]
  obtain ⟨ps, hps, hp⟩ := numbers_formRow (q := x.2) hx
  obtain ⟨qs, hqs, hq⟩ := numbers_formRow (q := y.2) hy
  have hn : List.Forall₂ Number.Is (numbers (formRow op x.1 x.2 ++ formRow op y.1 y.2)) (ps ++ qs) := by
    rw [numbers_append]
    exact List.rel_append hps hqs
  rw [join_eq_form hn hm (List.forall_mem_append.mpr ⟨finite_formRow hx, finite_formRow hy⟩), List.foldl_append, hp, hq,
    op.neutral_exact, symbolic_append]
  -- where zero leaves out the factors, the product is zero
  rcases symbolic_formRow (q := x.2) hx with hxs | ⟨rfl, hx0⟩
  · rcases symbolic_formRow (q := y.2) hy with hys | ⟨rfl, hy0⟩
    · rw [hxs, hys]
      rfl
    · exact form_eq_of_zero (mul_eq_zero_of_right _ hy0)
  · exact form_eq_of_zero (mul_eq_zero_of_left hx0 _)

/-! ## Splitting values -/

/-- A normal value without infinities as terms or factors, and with fractions as numbers there. -/
structure Groupable (op : BigOperator) (v : Value) : Prop where
  normal : v.Normal
  finite : ∀ w ∈ op.row v, w.isInfinite = false
  exact : ∀ n, .number n ∈ op.row v → n.isExact = true

theorem groupable_number {n : Number} (hn : n.Normal) (hex : n.isExact = true) : Groupable op (.number n) := by
  have hrow : op.row (.number n) = [.number n] := by cases op <;> rfl
  refine ⟨.number hn, ?_, fun m hm => ?_⟩
  · rw [hrow]
    exact List.forall_mem_singleton.mpr rfl
  · rw [hrow] at hm
    cases List.mem_singleton.mp hm
    exact hex

theorem groupable_symbol (name : String) : Groupable op (.symbol name) := by
  have hrow : op.row (.symbol name) = [.symbol name] := by cases op <;> rfl
  refine ⟨.symbol name, ?_, fun m hm => ?_⟩
  · rw [hrow]
    exact List.forall_mem_singleton.mpr rfl
  · rw [hrow] at hm
    cases List.mem_singleton.mp hm

/-- The symbolic items of a value, and its number. -/
def split (op : BigOperator) (v : Value) : List Value × ℚ :=
  (symbolic (op.row v), ((numbers (op.row v)).filterMap Number.rational?).foldl op.exact op.neutral)

theorem Groupable.items (h : Groupable op v) : ∀ w ∈ symbolic (op.row v), Item op w := by
  intro w hw
  obtain ⟨hmem, hnumber⟩ := mem_symbolic.mp hw
  exact ⟨hnumber, h.finite w hmem, (h.normal.row w hmem).2⟩

theorem number_eq_ofRational {n : Number} (hn : n.Normal) (hex : n.isExact = true) :
    ∃ q, n.Is q ∧ n.rational? = some q ∧ Value.number n = ofRational q := by
  cases n with
  | real => cases hex
  | ratio a d =>
    have his := Number.is_of_normal hn
    exact ⟨_, his, his.rational?, congrArg Value.number his⟩

theorem split_of_no_numbers (h : ∀ n, .number n ∉ op.row v) : split op v = (op.row v, op.neutral) := by
  obtain ⟨hs, hn⟩ := symbolic_of_no_numbers h
  rw [split, hs, hn]
  rfl

theorem split_of_number {us : List Value} {n : Number} (hs : symbolic (op.row v) = us) (hn : numbers (op.row v) = [n])
    (hq : n.rational? = some q) : split op v = (us, q) := by
  rw [split, hs, hn, List.filterMap_cons_some hq, List.filterMap_nil, List.foldl_cons, op.neutral_exact]
  rfl

/-- The row of a value is the row of what it splits into. -/
theorem Groupable.row_eq (h : Groupable op v) : op.row v = formRow op (split op v).1 (split op v).2 := by
  have hne : op.row v ≠ [] := h.normal.row_ne_nil
  cases op with
  | sum =>
    rcases h.normal.terms_split with hno | ⟨us, n, hrow, hs, hn⟩
    · rw [split_of_no_numbers hno]
      exact (if_pos ⟨rfl, hne⟩).symm
    · have hmem : Value.number n ∈ BigOperator.row .sum v := hrow ▸ List.mem_append_right _ List.mem_cons_self
      obtain ⟨q, hq, hrat, he⟩ := number_eq_ofRational (h.normal.row _ hmem).1.node (h.exact n hmem)
      rw [split_of_number hs hn hrat, hrow, he]
      refine (if_neg ?_).symm
      rintro ⟨hq0, hus⟩
      have hlast : (BigOperator.row .sum v)[us.length]? = some (.number n) := by
        rw [hrow, List.getElem?_concat_length]
      have hlen : 2 ≤ (BigOperator.row .sum v).length := by
        rw [hrow, List.length_append]
        exact Nat.succ_le_succ (List.length_pos_of_ne_nil hus)
      exact absurd (hq.isZero_iff.mpr hq0) (Bool.eq_false_iff.mp ((h.normal.terms_number _ n hlast).2 hlen))
  | product =>
    rcases h.normal.factors_split with hno | ⟨us, n, hrow, hs, hn⟩
    · rw [split_of_no_numbers hno]
      show _ = if (1 : ℚ) = 0 then [ofRational 1] else
        if (1 : ℚ) = 1 ∧ BigOperator.row .product v ≠ [] then BigOperator.row .product v else _
      rw [if_neg one_ne_zero, if_pos ⟨rfl, hne⟩]
    · have hmem : Value.number n ∈ BigOperator.row .product v := hrow ▸ List.mem_cons_self
      obtain ⟨q, hq, hrat, he⟩ := number_eq_ofRational (h.normal.row _ hmem).1.node (h.exact n hmem)
      rw [split_of_number hs hn hrat, hrow, he]
      have hfirst : (BigOperator.row .product v)[0]? = some (.number n) := by rw [hrow]; rfl
      have hedge := (h.normal.factors_number 0 n hfirst).2
      by_cases hus : us = []
      · subst hus
        unfold formRow
        dsimp only
        split
        · rfl
        · exact (if_neg fun h => h.2 rfl).symm
      · have hlen : 2 ≤ (BigOperator.row .product v).length := by
          rw [hrow]
          exact Nat.succ_le_succ (List.length_pos_of_ne_nil hus)
        obtain ⟨h1, h0⟩ := hedge hlen
        have hq0 : q ≠ 0 := by
          intro hq0
          obtain ⟨w, hw, hinf⟩ := List.any_eq_true.mp (h0 (hq.isZero_iff.mpr hq0))
          rw [h.finite w hw] at hinf
          cases hinf
        have hq1 : q ≠ 1 := fun hq1 => absurd (hq.isOne_iff.mpr hq1) (Bool.eq_false_iff.mp h1)
        exact ((if_neg hq0).trans (if_neg fun h => hq1 h.1)).symm

theorem Groupable.stands (h : Groupable op v) : Stands op v (split op v) := by
  refine ⟨h.items, ?_⟩
  rw [form, ← h.row_eq, h.normal.collect_row]

/-! ## Groupings -/

/-- The rows of values one behind the other, and their numbers combined. -/
def total (op : BigOperator) (vs : List Value) : List Value × ℚ :=
  vs.foldr (fun v x => act op (split op v) x) ([], op.neutral)

theorem act_assoc (x y z : List Value × ℚ) : act op (act op x y) z = act op x (act op y z) :=
  Prod.ext (List.append_assoc ..) (op.exact_assoc ..)

theorem total_append (us vs : List Value) : total op (us ++ vs) = act op (total op us) (total op vs) := by
  induction us with
  | nil => exact Prod.ext rfl (op.neutral_exact _).symm
  | cons u us ih =>
    show act op (split op u) (total op (us ++ vs)) = act op (act op (split op u) (total op us)) (total op vs)
    rw [ih, act_assoc]

theorem total_singleton (v : Value) : total op [v] = split op v :=
  Prod.ext (List.append_nil _) (op.exact_neutral _)

end Value

/-- A way to group the items of a row two by two. -/
inductive Grouping (α : Type) where
  | item (a : α)
  | node (left right : Grouping α)

namespace Grouping

variable {α β : Type} {op : BigOperator}

/-- The items from left to right. -/
def items : Grouping α → List α
  | item a => [a]
  | node l r => l.items ++ r.items

def map (f : α → β) : Grouping α → Grouping β
  | item a => item (f a)
  | node l r => node (l.map f) (r.map f)

theorem items_map (f : α → β) (g : Grouping α) : (g.map f).items = g.items.map f := by
  induction g with
  | item a => rfl
  | node l r ihl ihr => rw [map, items, items, List.map_append, ihl, ihr]

/-- The sum or the product of values that are grouped so. -/
def value (op : BigOperator) : Grouping Value → Value
  | item v => v
  | node l r => op.combine (l.value op) (r.value op)

/-- The numbers that are computed on the way. -/
def made (op : BigOperator) : Grouping Value → List Number
  | item _ => []
  | node l r => l.made op ++ r.made op ++ op.made (l.value op) (r.value op)

theorem stands {g : Grouping Value} (h : ∀ v ∈ g.items, Value.Groupable op v) (hm : AllExact (g.made op)) :
    Value.Stands op (g.value op) (Value.total op g.items) := by
  induction g with
  | item v =>
    rw [items, Value.total_singleton]
    exact (h v List.mem_cons_self).stands
  | node l r ihl ihr =>
    obtain ⟨hl, hr⟩ := List.forall_mem_append.mp h
    obtain ⟨hlr, hnode⟩ := hm.append
    obtain ⟨hml, hmr⟩ := hlr.append
    rw [items, Value.total_append]
    exact (ihl hl hml).combine (ihr hr hmr) hnode

/-- The value does not depend on the grouping. -/
theorem value_eq {g g' : Grouping Value} (hitems : g.items = g'.items) (h : ∀ v ∈ g.items, Value.Groupable op v)
    (hm : AllExact (g.made op)) (hm' : AllExact (g'.made op)) : g.value op = g'.value op := by
  have hg := (stands h hm).2
  have hg' := (stands (hitems ▸ h) hm').2
  rw [hg, hg', hitems]

end Grouping

namespace Value

variable {op : BigOperator} {a b c v : Value} {vs : List Value} {q : ℚ}

/-! ## Neutral elements -/

/-- Zero and one stand for no items at all. -/
theorem stands_unit : Stands op op.unit ([], op.neutral) := by
  refine ⟨fun _ => nofun, ?_⟩
  cases op <;> rfl

theorem onNumbers_start (op : BigOperator) {n : Number} (hn : n.Normal) (hex : n.isExact = true) :
    op.onNumbers op.start n = n ∧ op.onNumbers n op.start = n := by
  cases n with
  | real => cases hex
  | ratio a d =>
    cases op with
    | sum =>
      exact ⟨congrArg (Number.orReal · _) (Number.addExact_zero_left hn),
        congrArg (Number.orReal · _) (Number.addExact_zero_right hn)⟩
    | product =>
      exact ⟨congrArg (Number.orReal · _) (Number.mulExact_one_left hn),
        congrArg (Number.orReal · _) (Number.mulExact_one_right hn)⟩

/-- A value has one number at most. -/
theorem Groupable.numbers_cases (h : Groupable op v) :
    numbers (op.row v) = [] ∨ ∃ n, numbers (op.row v) = [n] ∧ n.Normal ∧ n.isExact = true := by
  have hnumber {n : Number} (hn : numbers (op.row v) = [n]) : n.Normal ∧ n.isExact = true := by
    have hmem : Value.number n ∈ op.row v := mem_numbers.mp (hn ▸ List.mem_singleton_self n)
    exact ⟨(h.normal.row _ hmem).1.node, h.exact n hmem⟩
  cases op with
  | sum =>
    rcases h.normal.terms_split with hno | ⟨-, n, -, -, hn⟩
    · exact .inl (symbolic_of_no_numbers hno).2
    · exact .inr ⟨n, hn, hnumber hn⟩
  | product =>
    rcases h.normal.factors_split with hno | ⟨-, n, -, -, hn⟩
    · exact .inl (symbolic_of_no_numbers hno).2
    · exact .inr ⟨n, hn, hnumber hn⟩

theorem allExact_made_unit (h : Groupable op v) : AllExact (op.made op.unit v) ∧ AllExact (op.made v op.unit) := by
  have hunit : numbers (op.row op.unit) = [op.start] := by cases op <;> rfl
  have hstart : op.start.isExact = true := by cases op <;> rfl
  have hstep : op.onNumbers op.start op.start = op.start := by cases op <;> rfl
  unfold BigOperator.made BigOperator.partials AllExact
  rw [numbers_append, numbers_append, hunit]
  rcases h.numbers_cases with hn | ⟨n, hn, hnormal, hex⟩
  · rw [hn]
    simp [List.scanl_cons, hstep, hstart]
  · obtain ⟨hl, hr⟩ := onNumbers_start op hnormal hex
    rw [hn]
    simp [List.scanl_cons, hstep, hstart, hl, hr, hex]

theorem Stands.eq {x : List Value × ℚ} (ha : Stands op a x) (hb : Stands op b x) : a = b := ha.2.trans hb.2.symm

/-- Zero and one are neutral. -/
theorem Groupable.combine_unit (h : Groupable op v) : op.combine op.unit v = v ∧ op.combine v op.unit = v := by
  obtain ⟨hl, hr⟩ := allExact_made_unit h
  have hleft : act op ([], op.neutral) (split op v) = split op v := Prod.ext rfl (op.neutral_exact _)
  have hright : act op (split op v) ([], op.neutral) = split op v :=
    Prod.ext (List.append_nil _) (op.exact_neutral _)
  exact ⟨(hleft ▸ stands_unit.combine h.stands hl).eq h.stands, (hright ▸ h.stands.combine stands_unit hr).eq h.stands⟩

/-! ## Ranges -/

theorem stands_foldl {x : List Value × ℚ} (ha : Stands op a x) (hvs : ∀ v ∈ vs, Groupable op v)
    (hm : AllExact (Made.fold op.combine op.made a vs)) :
    Stands op (vs.foldl op.combine a) (act op x (total op vs)) := by
  induction vs generalizing a x with
  | nil =>
    have hx : act op x (total op []) = x := Prod.ext (List.append_nil _) (op.exact_neutral _)
    rw [hx]
    exact ha
  | cons v vs ih =>
    obtain ⟨hv, hvs⟩ := List.forall_mem_cons.mp hvs
    obtain ⟨hstep, hrest⟩ := hm.append
    have hx : act op x (total op (v :: vs)) = act op (act op x (split op v)) (total op vs) := (act_assoc ..).symm
    rw [hx]
    exact ih (ha.combine hv.stands hstep) hvs hrest

/-- The integers from the first to the second. -/
def integers (lo hi : Int) : List Int := (List.range (hi + 1 - lo).toNat).map fun (k : Nat) => lo + k

theorem mem_integers {lo hi k : Int} : k ∈ integers lo hi ↔ lo ≤ k ∧ k ≤ hi := by
  simp only [integers, List.mem_map, List.mem_range]
  constructor
  · rintro ⟨j, hj, rfl⟩
    omega
  · rintro ⟨hlo, hhi⟩
    exact ⟨(k - lo).toNat, by omega, by omega⟩

theorem integers_append {lo m hi : Int} (hlo : lo ≤ m) (hhi : m < hi) :
    integers lo hi = integers lo m ++ integers (m + 1) hi := by
  have hlen : (hi + 1 - lo).toNat = (m + 1 - lo).toNat + (hi + 1 - (m + 1)).toNat := by omega
  unfold integers
  rw [hlen, List.range_add, List.map_append, List.map_map]
  refine congrArg _ (List.map_congr_left fun k _ => ?_)
  show lo + (((m + 1 - lo).toNat + k : Nat) : Int) = m + 1 + k
  omega

theorem range?_int {lo hi : Int} (h : lo ≤ hi) (hlen : hi - lo < longRange) :
    range? (.int lo) (.int hi) = some (integers lo hi) := by
  have hfit : Int128.sub? hi lo = some (hi - lo) := by
    refine Number.fit_of_inRange ?_
    simp only [longRange, Int128.InRange, Int128.least, Int128.greatest] at hlen ⊢
    omega
  show (Int128.sub? hi lo).bind (fun d => if d < longRange then some (integers lo hi) else none) = _
  rw [hfit, Option.bind_some, if_pos hlen]

/-- The values of a body at the integers of a range. -/
def valuesAt (var : String) (body : Value) (lo hi : Int) : List Value :=
  (integers lo hi).map fun k => body.subst var (.int k)

/-- The numbers that are computed over a range of integers. -/
def Made.range (op : BigOperator) (var : String) (body : Value) (lo hi : Int) : List Number :=
  Made.fold op.combine op.made op.unit (valuesAt var body lo hi)

theorem stands_big {var : String} {lo hi : Int} (h : lo ≤ hi) (hlen : hi - lo < longRange)
    (hterms : ∀ k, lo ≤ k → k ≤ hi → Groupable op (v.subst var (.int k))) (hm : AllExact (Made.range op var v lo hi)) :
    Stands op (big op var (.int lo) (.int hi) v) (total op (valuesAt var v lo hi)) := by
  have hvalues : ∀ w ∈ valuesAt var v lo hi, Groupable op w := by
    refine List.forall_mem_map.mpr fun k hk => ?_
    obtain ⟨hlo, hhi⟩ := mem_integers.mp hk
    exact hterms k hlo hhi
  have hx : act op ([], op.neutral) (total op (valuesAt var v lo hi)) = total op (valuesAt var v lo hi) :=
    Prod.ext rfl (op.neutral_exact _)
  rw [big_eq, range?_int h hlen, ← hx]
  exact stands_foldl stands_unit hvalues hm

/-- A range can be cut in two. -/
theorem big_cut {var : String} {lo m hi : Int} (hlo : lo ≤ m) (hhi : m < hi) (hlen : hi - lo < longRange)
    (hterms : ∀ k, lo ≤ k → k ≤ hi → Groupable op (v.subst var (.int k)))
    (hwhole : AllExact (Made.range op var v lo hi)) (hleft : AllExact (Made.range op var v lo m))
    (hright : AllExact (Made.range op var v (m + 1) hi))
    (hboth : AllExact (op.made (big op var (.int lo) (.int m) v) (big op var (.int (m + 1)) (.int hi) v))) :
    big op var (.int lo) (.int hi) v =
      op.combine (big op var (.int lo) (.int m) v) (big op var (.int (m + 1)) (.int hi) v) := by
  have hl : Stands op _ _ := stands_big (by omega) (by omega) (fun k hk hk' => hterms k hk (by omega)) hleft
  have hr : Stands op _ _ := stands_big (by omega) (by omega) (fun k hk hk' => hterms k (by omega) hk') hright
  have hw : Stands op _ _ := stands_big (by omega) hlen hterms hwhole
  have hcut : valuesAt var v lo hi = valuesAt var v lo m ++ valuesAt var v (m + 1) hi := by
    rw [valuesAt, integers_append hlo hhi, List.map_append]
    rfl
  rw [hcut, total_append] at hw
  exact hw.eq (hl.combine hr hboth)

end Value

end Formula
