import Mathlib.Algebra.GroupWithZero.Nat
import Formula.LR.Item
import Formula.Proofs.LR.Grammar
import Formula.Proofs.LR.Reach

/-!
# Items by their numbers

States are sets of numbers, and the theory of the parser speaks of items. `Holds` is the view of a state as
a set of items, and each operation on states has a lemma that says what it does to the view:

* `holds_close_iff`: the closure adds the items at the start of a production whose left-hand side may begin
  where a dot stands;
* `holds_advance_iff`: the state after a symbol is the closure of the items whose dot moves over it;
* `holds_start_iff`: the start state is the closure of the goal's item.

The closure is the least set that has the items and what may begin behind them (`closure_iff`).

The numbers themselves are used once, in `items_getElem?_iff`: the items of a production lie side by side,
so that the dot moves when the number grows by one.
-/

namespace Formula.LR

namespace Grammar

/-! ## Numbers -/

/-- How many items the first productions have. -/
def offset (ps : List Production) (n : Nat) : Nat := ((ps.take n).map (·.rhs.length + 1)).sum

theorem le_production_of_mem {ps : List Production} {k : Nat} {item : Item}
    (h : item ∈ (ps.zipIdx k).flatMap fun (p, i) => (List.range (p.rhs.length + 1)).map (Item.mk i)) :
    k ≤ item.production := by
  obtain ⟨⟨p, i⟩, hp, hi⟩ := List.mem_flatMap.mp h
  obtain ⟨d, -, rfl⟩ := List.mem_map.mp hi
  exact List.le_snd_of_mem_zipIdx hp

theorem zipIdx_getElem?_iff (ps : List Production) (k n j d : Nat) :
    ((ps.zipIdx k).flatMap fun (p, i) => (List.range (p.rhs.length + 1)).map (Item.mk i))[n]? =
        some ⟨k + j, d⟩ ↔
      ∃ p, ps[j]? = some p ∧ d ≤ p.rhs.length ∧ n = offset ps j + d := by
  induction ps generalizing k n j with
  | nil => simp
  | cons p ps ih =>
    rw [List.zipIdx_cons, List.flatMap_cons, List.getElem?_append]
    simp only [List.length_map, List.length_range, List.getElem?_map]
    cases j with
    | zero =>
      split
      · rw [List.getElem?_range ‹_›]
        simp only [offset, List.getElem?_cons_zero, Option.map_some, Option.some.injEq, Item.mk.injEq,
          Nat.add_zero, true_and, exists_eq_left', List.take_zero, List.map_nil, List.sum_nil]
        omega
      · constructor
        · intro h
          have : k + 1 ≤ k := le_production_of_mem (List.mem_of_getElem? h)
          omega
        · rintro ⟨q, hq, hd, hn⟩
          simp only [List.getElem?_cons_zero, Option.some.injEq] at hq
          subst hq
          simp only [offset, List.take_zero, List.map_nil, List.sum_nil] at hn
          omega
    | succ j =>
      have ho : offset (p :: ps) (j + 1) = p.rhs.length + 1 + offset ps j := by simp [offset]
      rw [ho, List.getElem?_cons_succ]
      split
      · rw [List.getElem?_range ‹_›]
        simp only [Option.map_some, Option.some.injEq, Item.mk.injEq]
        constructor
        · omega
        · rintro ⟨-, -, -, hn⟩
          omega
      · rw [show k + (j + 1) = k + 1 + j by omega, ih]
        refine exists_congr fun q => and_congr_right fun _ => and_congr_right fun _ => ?_
        omega

variable {g : Grammar}

/-- The item with a number: the items of the productions before it come first. -/
theorem items_getElem?_iff {n i d : Nat} :
    g.items[n]? = some ⟨i, d⟩ ↔
      ∃ p, g.productions[i]? = some p ∧ d ≤ p.rhs.length ∧ n = offset g.productions i + d := by
  have := zipIdx_getElem?_iff g.productions 0 n i d
  rwa [Nat.zero_add] at this

/-- An item has one number. -/
theorem items_number {n m : Nat} {item : Item} (hn : g.items[n]? = some item) (hm : g.items[m]? = some item) :
    n = m := by
  obtain ⟨p, hp, -, rfl⟩ := items_getElem?_iff.mp hn
  obtain ⟨p', hp', -, rfl⟩ := items_getElem?_iff.mp hm
  rfl

/-- Items stand in the order of their productions, and those of one production in the order of their dots. -/
theorem pairwise_items :
    g.items.Pairwise fun a b => a.production < b.production ∨ a.production = b.production ∧ a.dot < b.dot := by
  rw [items, List.pairwise_flatMap]
  constructor
  · rintro ⟨p, i⟩ -
    rw [List.pairwise_map]
    exact List.pairwise_lt_range.imp fun h => .inr ⟨rfl, h⟩
  · have h : g.productions.zipIdx.Pairwise fun a b => a.2 < b.2 := by
      rw [← List.pairwise_map (R := (· < ·)), List.zipIdx_map_snd]
      exact List.pairwise_lt_range'
    refine h.imp fun h x hx y hy => .inl ?_
    obtain ⟨d, -, rfl⟩ := List.mem_map.mp hx
    obtain ⟨e, -, rfl⟩ := List.mem_map.mp hy
    exact h

/-- The dot of a complete item stands at the end. -/
theorem dot_of_isComplete {n i d : Nat} (hn : g.items[n]? = some ⟨i, d⟩) (h : g.isComplete ⟨i, d⟩ = true) :
    ∃ p, g.productions[i]? = some p ∧ d = p.rhs.length := by
  obtain ⟨p, hp, hd, -⟩ := items_getElem?_iff.mp hn
  simp only [isComplete, next?, hp, Option.bind_some, Option.isNone_iff_eq_none, List.getElem?_eq_none_iff] at h
  exact ⟨p, hp, Nat.le_antisymm hd h⟩

/-- The dot moves when the number grows by one. -/
theorem items_getElem?_succ {n x : Nat} {item : Item} (h : g.items[n]? = some item)
    (hx : g.next? item = some x) : g.items[n + 1]? = some ⟨item.production, item.dot + 1⟩ := by
  obtain ⟨p, hp, -, rfl⟩ := items_getElem?_iff.mp h
  rw [next?, hp, Option.bind_some] at hx
  have := (List.getElem?_eq_some_iff.mp hx).1
  exact items_getElem?_iff.mpr ⟨p, hp, this, by omega⟩

/-- The start of every production is an item. -/
theorem exists_start {i : Nat} {p : Production} (hp : g.productions[i]? = some p) :
    ∃ n : Nat, g.items[n]? = some ⟨i, 0⟩ :=
  ⟨_, items_getElem?_iff.mpr ⟨p, hp, Nat.zero_le _, rfl⟩⟩

/-! ## The view -/

/-- The state has the item. -/
def Holds (g : Grammar) (state : State) (item : Item) : Prop :=
  ∃ n, g.items[n]? = some item ∧ state.has n = true

theorem Holds.production {state : State} {i d : Nat} (h : g.Holds state ⟨i, d⟩) :
    ∃ p, g.productions[i]? = some p ∧ d ≤ p.rhs.length := by
  obtain ⟨n, hn, -⟩ := h
  obtain ⟨p, hp, hd, -⟩ := items_getElem?_iff.mp hn
  exact ⟨p, hp, hd⟩

theorem has_before {x n : Nat} :
    (g.before x).has n = true ↔ ∃ item, g.items[n]? = some item ∧ g.next? item = some x := by
  simp only [before, expectations, IndexSet.has_ofList, List.mem_map, List.mem_filter,
    List.mem_filterMap, Prod.exists, List.mem_zipIdx_iff_getElem?, Option.map_eq_some_iff,
    beq_iff_eq, Prod.mk.injEq]
  constructor
  · rintro ⟨_, _, ⟨⟨item, m, hm, _, hx, rfl, rfl⟩, rfl⟩, rfl⟩
    exact ⟨item, hm, hx⟩
  · rintro ⟨item, hn, hx⟩
    exact ⟨x, n, ⟨⟨item, n, hn, x, hx, rfl, rfl⟩, rfl⟩, rfl⟩

/-- A nonterminal may begin where another stands. -/
abbrev Begins (g : Grammar) : Nat → Nat → Prop := Path g.beginnings

theorem edge_beginnings {a b : Nat} :
    Edge g.beginnings a b ↔ b < g.nonterminals ∧ ∃ p ∈ g.productions, p.lhs = a ∧ ∃ rest, p.rhs = b :: rest := by
  simp only [Edge, beginnings, List.mem_filterMap]
  constructor
  · rintro ⟨p, hp, h⟩
    split at h
    · rename_i b rest hr
      split at h
      · cases h
        exact ⟨‹_›, p, hp, rfl, rest, hr⟩
      · cases h
    · cases h
  · rintro ⟨hb, p, hp, rfl, rest, hr⟩
    refine ⟨p, hp, ?_⟩
    rw [hr]
    exact if_pos hb

theorem has_opening {a n : Nat} :
    (g.opening a).has n = true ↔
      ∃ item b, g.items[n]? = some item ∧ item.dot = 0 ∧ g.lhs? item = some b ∧ g.Begins a b := by
  simp only [opening, openings, IndexSet.has_ofList, List.mem_map, List.mem_filter,
    List.mem_filterMap, Prod.exists, List.mem_zipIdx_iff_getElem?, has_reachable_singleton]
  constructor
  · rintro ⟨b, _, ⟨⟨item, m, hm, h⟩, hb⟩, rfl⟩
    split at h
    · simp only [Option.map_eq_some_iff, Prod.mk.injEq] at h
      obtain ⟨b, hl, rfl, rfl⟩ := h
      exact ⟨item, b, hm, ‹_›, hl, hb⟩
    · cases h
  · rintro ⟨item, b, hn, hd, hl, hb⟩
    exact ⟨b, n, ⟨⟨item, n, hn, by simp [hd, hl]⟩, hb⟩, rfl⟩

/-! ## Closures -/

/-- The dot of an item moves over a symbol. -/
def Moved (g : Grammar) (P : Item → Prop) (x : Nat) (item : Item) : Prop :=
  ∃ k, P k ∧ g.next? k = some x ∧ item = ⟨k.production, k.dot + 1⟩

/-- The items, and those at the start of a production whose left-hand side may begin where the dot of one
of them stands. -/
def Closure (g : Grammar) (P : Item → Prop) (item : Item) : Prop :=
  P item ∨ item.dot = 0 ∧ ∃ p, g.productions[item.production]? = some p ∧
    ∃ k a, P k ∧ g.next? k = some a ∧ a < g.nonterminals ∧ g.Begins a p.lhs

theorem Closure.of_dot_pos {P : Item → Prop} {item : Item} (h : g.Closure P item) (hd : item.dot ≠ 0) :
    P item :=
  h.resolve_right fun h => hd h.1

/-- Nothing more begins where a dot of the closure stands. -/
theorem Closure.start {P : Item → Prop} {k : Item} {i : Nat} {p : Production} (h : g.Closure P k)
    (hk : g.next? k = some p.lhs) (hl : p.lhs < g.nonterminals) (hp : g.productions[i]? = some p) :
    g.Closure P ⟨i, 0⟩ := by
  refine .inr ⟨rfl, p, hp, ?_⟩
  rcases h with h | ⟨hd, q, hq, k', a, hk', hn, ha, hb⟩
  · exact ⟨k, p.lhs, h, hk, hl, .refl⟩
  · refine ⟨k', a, hk', hn, ha, hb.tail ?_⟩
    -- the dot stands before the first symbol of `q`, so `p` begins where `q` does
    rw [next?, hq, Option.bind_some, hd] at hk
    obtain ⟨rest, hr⟩ : ∃ rest, q.rhs = p.lhs :: rest := by
      cases hr : q.rhs with
      | nil => simp [hr] at hk
      | cons s rest => exact ⟨rest, by simpa [hr] using hk⟩
    exact edge_beginnings.mpr ⟨hl, q, List.mem_of_getElem? hq, rfl, rest, hr⟩

/-- The least set that has the items and, with each of its own, the starts of all productions of the symbol behind
the dot. -/
inductive LeastClosure (g : Grammar) (P : Item → Prop) : Item → Prop where
  | base {item : Item} (h : P item) : LeastClosure g P item
  | start {k : Item} {i : Nat} {p : Production} (h : LeastClosure g P k) (hk : g.next? k = some p.lhs)
      (hp : g.productions[i]? = some p) : LeastClosure g P ⟨i, 0⟩

theorem closure_iff (hc : g.Checked) {P : Item → Prop} {item : Item} :
    g.Closure P item ↔ g.LeastClosure P item := by
  constructor
  · rintro (h | ⟨hd, p, hp, k, a, hk, hn, -, hb⟩)
    · exact .base h
    · obtain ⟨i, d⟩ := item
      obtain rfl : d = 0 := hd
      have hp : g.productions[i]? = some p := hp
      generalize hl : p.lhs = b at hb
      induction hb generalizing i p with
      | refl => exact .start (.base hk) (hl ▸ hn) hp
      | tail _ he ih =>
        obtain ⟨-, q, hq, rfl, rest, hr⟩ := edge_beginnings.mp he
        obtain ⟨j, hj⟩ := List.mem_iff_getElem?.mp hq
        exact .start (ih q j hj hj rfl) (by rw [next?, hj, Option.bind_some, hr, hl]; rfl) hp
  · intro h
    induction h with
    | base h => exact .inl h
    | start _ hk hp ih => exact ih.start hk (hc.lhs_lt _ (List.mem_of_getElem? hp)) hp

/-- Two rows that run side by side meet at the places that both have. -/
theorem mem_zip_range {α β : Type} {f : Nat → α} {h : Nat → β} {m n : Nat} {x : α} {y : β} :
    (x, y) ∈ ((List.range m).map f).zip ((List.range n).map h) ↔
      ∃ a, a < m ∧ a < n ∧ f a = x ∧ h a = y := by
  simp only [List.mem_iff_getElem?, List.getElem?_zip_eq_some, List.getElem?_map,
    Option.map_eq_some_iff]
  constructor
  · rintro ⟨i, ⟨a, ha, rfl⟩, b, hb, rfl⟩
    obtain ⟨ha', rfl⟩ := List.getElem?_eq_some_iff.mp ha
    obtain ⟨hb', rfl⟩ := List.getElem?_eq_some_iff.mp hb
    simp only [List.length_range, List.getElem_range] at ha' hb' ⊢
    exact ⟨i, ha', hb', rfl, rfl⟩
  · rintro ⟨a, hm, hn, rfl, rfl⟩
    exact ⟨a, ⟨a, List.getElem?_range hm, rfl⟩, a, List.getElem?_range hn, rfl⟩

theorem not_isEmpty_iff {s : IndexSet} : ¬ s.isEmpty = true ↔ ∃ i, s.has i = true := by
  simp [IndexSet.isEmpty_iff]

theorem has_close (hn : g.nonterminals ≤ g.symbols) {items : State} {n : Nat} :
    (g.itemTable.close items).has n = true ↔ items.has n = true ∨
      ∃ a < g.nonterminals, (∃ m, items.has m = true ∧ (g.before a).has m = true) ∧
        (g.opening a).has n = true := by
  rw [ItemTable.close, IndexSet.has_union, Bool.or_eq_true, IndexSet.has_unions]
  refine or_congr_right ?_
  simp only [itemTable, List.mem_filterMap, Prod.exists]
  constructor
  · rintro ⟨s, ⟨b, o, hbo, hs⟩, ho⟩
    obtain ⟨a, -, ha, rfl, rfl⟩ := mem_zip_range.mp hbo
    split at hs
    · cases hs
    · obtain ⟨m, hm⟩ := not_isEmpty_iff.mp ‹_›
      obtain rfl := Option.some.inj hs
      rw [IndexSet.has_inter, Bool.and_eq_true] at hm
      exact ⟨a, ha, ⟨m, hm⟩, ho⟩
  · rintro ⟨a, ha, ⟨m, hm⟩, ho⟩
    refine ⟨_, ⟨_, _, mem_zip_range.mpr ⟨a, by omega, ha, rfl, rfl⟩, if_neg ?_⟩, ho⟩
    exact not_isEmpty_iff.mpr ⟨m, by rw [IndexSet.has_inter, Bool.and_eq_true]; exact hm⟩

/-- The closure of a state is that of its items. -/
theorem holds_close_iff (hn : g.nonterminals ≤ g.symbols) {items : State} {item : Item} :
    g.Holds (g.itemTable.close items) item ↔ g.Closure (g.Holds items) item := by
  constructor
  · rintro ⟨n, hi, h⟩
    rcases (has_close hn).mp h with h | ⟨a, ha, ⟨m, hm, hb⟩, ho⟩
    · exact .inl ⟨n, hi, h⟩
    · obtain ⟨k, hk, hx⟩ := has_before.mp hb
      obtain ⟨i, b, hi', hd, hl, hab⟩ := has_opening.mp ho
      obtain rfl := Option.some.inj (hi'.symm.trans hi)
      obtain ⟨p, hp, rfl⟩ := Option.map_eq_some_iff.mp hl
      exact .inr ⟨hd, p, hp, k, a, ⟨m, hk, hm⟩, hx, ha, hab⟩
  · rintro (⟨n, hi, h⟩ | ⟨hd, p, hp, k, a, ⟨m, hk, hm⟩, hx, ha, hab⟩)
    · exact ⟨n, hi, (has_close hn).mpr (.inl h)⟩
    · obtain ⟨n, hi⟩ := exists_start hp
      rw [← hd] at hi
      refine ⟨n, hi, (has_close hn).mpr (.inr ⟨a, ha, ⟨m, hm, has_before.mpr ⟨k, hk, hx⟩⟩, ?_⟩)⟩
      exact has_opening.mpr ⟨_, p.lhs, hi, hd, by rw [lhs?, hp]; rfl, hab⟩

/-! ## The next state -/

theorem holds_next_iff {state : State} {x : Nat} {item : Item} :
    g.Holds (state.inter (g.before x)).next item ↔ g.Moved (g.Holds state) x item := by
  constructor
  · rintro ⟨n, hi, h⟩
    simp only [IndexSet.has_next, IndexSet.has_inter, Bool.and_eq_true, decide_eq_true_eq] at h
    obtain ⟨hn, hs, hb⟩ := h
    obtain ⟨k, hk, hx⟩ := has_before.mp hb
    have := items_getElem?_succ hk hx
    rw [Nat.sub_add_cancel hn, hi] at this
    exact ⟨k, ⟨_, hk, hs⟩, hx, Option.some.inj this⟩
  · rintro ⟨k, ⟨n, hk, hs⟩, hx, rfl⟩
    refine ⟨n + 1, items_getElem?_succ hk hx, ?_⟩
    simp [IndexSet.has_next, IndexSet.has_inter, hs, has_before.mpr ⟨k, hk, hx⟩]

theorem has_advance (hn : g.nonterminals ≤ g.symbols) {state : State} {x n : Nat} :
    (g.itemTable.advance state (g.before x)).has n = true ↔
      (g.itemTable.close (state.inter (g.before x)).next).has n = true := by
  rw [ItemTable.advance]
  split
  · rename_i he
    have he := IndexSet.isEmpty_iff.mp he
    rw [IndexSet.has_empty, has_close hn]
    simp [he]
  · rfl

/-- The state after a symbol is the closure of the items whose dot moved over it. -/
theorem holds_advance_iff (hn : g.nonterminals ≤ g.symbols) {state : State} {x : Nat} {item : Item} :
    g.Holds (g.itemTable.advance state (g.before x)) item ↔
      g.Closure (g.Moved (g.Holds state) x) item := by
  have e : g.Holds (state.inter (g.before x)).next = g.Moved (g.Holds state) x := by
    ext i
    exact holds_next_iff
  rw [← e, ← holds_close_iff hn]
  simp only [Holds, has_advance hn]

/-- The state before the input is the closure of the start of the goal. -/
theorem holds_start_iff (hn : g.nonterminals ≤ g.symbols) {goal : Nat} {p : Production}
    (hp : g.productions[goal]? = some p) {item : Item} :
    g.Holds (g.start g.itemTable goal) item ↔ g.Closure (· = ⟨goal, 0⟩) item := by
  have e : g.Holds (.ofList (g.items.findIdx? (· == ⟨goal, 0⟩)).toList) = (· = ⟨goal, 0⟩) := by
    ext i
    obtain ⟨n, hi⟩ := exists_start hp
    obtain ⟨m, hm⟩ : ∃ m, g.items.findIdx? (· == ⟨goal, 0⟩) = some m := by
      rw [← Option.isSome_iff_exists, List.findIdx?_isSome, List.any_eq_true]
      exact ⟨_, List.mem_of_getElem? hi, by simp⟩
    obtain ⟨hl, he, -⟩ := List.findIdx?_eq_some_iff_getElem.mp hm
    rw [beq_iff_eq] at he
    simp only [Holds, hm, Option.toList_some, IndexSet.has_ofList, List.mem_singleton,
      exists_eq_right, List.getElem?_eq_getElem hl, he, Option.some.injEq]
    exact eq_comm
  rw [start, holds_close_iff hn, e]

end Grammar

end Formula.LR
