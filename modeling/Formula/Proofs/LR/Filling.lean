import Formula.Proofs.LR.Prescribed
import Formula.Proofs.LR.Saturation

/-!
# Filling the table

Row by row and item by item, the candidates of all cells are collected, and every cell then has the candidates that
`Grammar.cell` says, in their order (`fillTable_eq`). No lookup misses on the way: an item of a state has a production,
what follows a left-hand side are symbols, and there is a last symbol for the acceptance of a goal.

`Fills` compares a row with what its columns should hold. `Offers` is what one item contributes to its row; together the
items contribute what the cells of the state hold besides the ways over nonterminals (`mem_acts_cell`).
-/

namespace Formula.LR

/-! ## Candidates in order -/

/-- The candidates of a cell, in their order. -/
def Cell.acts (c : Cell) : List Act :=
  (if c.accept then [.accept] else []) ++ (c.shift.toList.map .shift ++
    (c.reduce.map .reduce ++ c.goto.toList.map .goto))

theorem Act.key_injective (a b : Act) (h : a.key = b.key) : a = b := by
  cases a <;> cases b <;> simp_all [Act.key]

namespace Cell

variable {c : Cell}

theorem mem_acts_accept : Act.accept ∈ c.acts ↔ c.accept = true := by simp [acts]

theorem mem_acts_shift {n : Nat} : Act.shift n ∈ c.acts ↔ c.shift = some n := by simp [acts]

theorem mem_acts_reduce {i : Nat} : Act.reduce i ∈ c.acts ↔ i ∈ c.reduce := by simp [acts]

theorem mem_acts_goto {n : Nat} : Act.goto n ∈ c.acts ↔ c.goto = some n := by simp [acts]

theorem ordered_acts (h : c.reduce.Pairwise (· < ·)) : Ordered Act.key c.acts := by
  have hsome : ∀ {f : Nat → Act} {o : Option Nat}, Ordered Act.key (o.toList.map f) := by
    intro f o
    cases o <;> simp [Ordered]
  have hreduce : Ordered Act.key (c.reduce.map .reduce) :=
    List.pairwise_map.mpr (h.imp fun hab => .inr ⟨rfl, hab⟩)
  refine List.pairwise_append.mpr
    ⟨?_, List.pairwise_append.mpr ⟨hsome, List.pairwise_append.mpr ⟨hreduce, hsome, ?_⟩, ?_⟩, ?_⟩
  · split <;> simp
  all_goals
    intro a ha b hb
    refine .inl ?_
    -- whatever stands further behind is of a later kind
    simp only [List.mem_append, List.mem_map, List.mem_ite_nil_right, List.mem_singleton] at ha hb
  · obtain ⟨i, -, rfl⟩ := ha
    obtain ⟨n, -, rfl⟩ := hb
    simp [Act.key]
  · obtain ⟨n, -, rfl⟩ := ha
    rcases hb with ⟨i, -, rfl⟩ | ⟨m, -, rfl⟩ <;> simp [Act.key]
  · obtain ⟨-, rfl⟩ := ha
    rcases hb with ⟨n, -, rfl⟩ | ⟨i, -, rfl⟩ | ⟨m, -, rfl⟩ <;> simp [Act.key]

end Cell

/-! ## Rows -/

/-- In each of so many columns the row has the candidates for it, in order. -/
structure Fills (symbols : Nat) (row : List (List Act)) (P : Nat → Act → Prop) : Prop where
  length_eq : row.length = symbols
  ordered : ∀ cell ∈ row, Ordered Act.key cell
  mem_iff : ∀ x cell, row[x]? = some cell → ∀ act, act ∈ cell ↔ P x act

namespace Fills

variable {symbols : Nat} {row : List (List Act)} {P Q : Nat → Act → Prop}

theorem congr (h : Fills symbols row P) (hPQ : ∀ x act, P x act ↔ Q x act) : Fills symbols row Q :=
  ⟨h.length_eq, h.ordered, fun x cell hx act => (h.mem_iff x cell hx act).trans (hPQ x act)⟩

theorem empty (symbols : Nat) : Fills symbols (List.replicate symbols []) fun _ _ => False := by
  refine ⟨List.length_replicate, fun cell hc => ?_, fun x cell hx act => ?_⟩
  · rw [List.eq_of_mem_replicate hc]
    exact List.Pairwise.nil
  · rw [List.eq_of_mem_replicate (List.mem_of_getElem? hx)]
    simp

/-- Rows with the same candidates in their columns are equal. -/
theorem eq_map (h : Fills symbols row P) {cells : Nat → List Act} (ho : ∀ x, Ordered Act.key (cells x))
    (hm : ∀ x < symbols, ∀ act, act ∈ cells x ↔ P x act) : row = (List.range symbols).map cells := by
  refine List.ext_getElem? fun x => ?_
  by_cases hx : x < symbols
  · have hcell := List.getElem?_eq_getElem (l := row) (i := x) (by rwa [h.length_eq])
    rw [List.getElem?_map, List.getElem?_range hx, Option.map_some, hcell, Option.some.injEq]
    refine (h.ordered _ (List.mem_of_getElem? hcell)).eq (ho x) fun act => ?_
    rw [h.mem_iff x _ hcell act, hm x hx act]
  · rw [List.getElem?_eq_none (by rw [h.length_eq]; omega), List.getElem?_eq_none (by simpa using hx)]

theorem exists_addAct (h : Fills symbols row P) {x : Nat} (hx : x < symbols) (act : Act) :
    ∃ row', addAct row x act = some row' ∧ Fills symbols row' fun y a => P y a ∨ y = x ∧ a = act := by
  have hlt : x < row.length := by rwa [h.length_eq]
  have hcell := List.getElem?_eq_getElem hlt
  refine ⟨_, by rw [addAct, hcell]; rfl, List.length_set.trans h.length_eq, fun cell hc => ?_, fun y cell hy a => ?_⟩
  · rcases List.mem_or_eq_of_mem_set hc with hc | rfl
    · exact h.ordered cell hc
    · exact (h.ordered _ (List.mem_of_getElem? hcell)).insertBy Act.key_injective act
  · by_cases hyx : y = x
    · subst hyx
      rw [List.getElem?_set_self hlt, Option.some.injEq] at hy
      rw [← hy, mem_insertBy, h.mem_iff y _ hcell]
      simp [or_comm]
    · rw [List.getElem?_set_ne (Ne.symm hyx)] at hy
      rw [h.mem_iff y cell hy]
      simp [hyx]

end Fills

theorem IndexSet.mem_members {s : IndexSet} {i : Nat} : i ∈ s.members ↔ s.has i = true := by
  rw [members, mem_toList]
  refine ⟨fun h => h.2, fun h => ⟨?_, h⟩⟩
  have hle : 2 ^ i ≤ s.digits := Nat.ge_two_pow_of_testBit h
  have hne : s.digits ≠ 0 := Nat.ne_of_gt (Nat.lt_of_lt_of_le (Nat.two_pow_pos i) hle)
  exact Nat.lt_succ_of_le ((Nat.le_log2 hne).mpr hle)

/-- A list and its image under a map that keeps elements apart have an element at the same place. -/
theorem idxOf?_map {α β : Type} [BEq α] [LawfulBEq α] [BEq β] [LawfulBEq β] {f : α → β} {a : α} {l : List α}
    (h : ∀ b ∈ l, f b = f a → b = a) : (l.map f).idxOf? (f a) = l.idxOf? a := by
  induction l with
  | nil => rfl
  | cons b l ih =>
    have he : (f b == f a) = (b == a) := by
      rw [Bool.eq_iff_iff, beq_iff_eq, beq_iff_eq]
      exact ⟨h b List.mem_cons_self, fun hb => by rw [hb]⟩
    rw [List.map_cons, List.idxOf?_cons, List.idxOf?_cons, he, ih fun c hc => h c (List.mem_cons_of_mem b hc)]

namespace Grammar

variable {g : Grammar}

/-! ## Items -/

/-- What an item of a state adds to the candidates before a symbol. -/
def Offers (g : Grammar) (q : State) (item : Item) (x : Nat) (act : Act) : Prop :=
  match g.next? item with
  | some s => g.IsTerminal s ∧ x = s ∧ ∃ n, g.automaton.number? (g.after q s) = some n ∧ act = .shift n
  | none =>
    if item.production ∈ g.goals then x = g.endMarker ∧ act = .accept
    else g.automaton.isFollowedBy item.production x = true ∧ act = .reduce item.production

/-- The number of a state is the place of its items in the collection. -/
theorem idxOf?_itemsOf (hc : g.Checked) {s : State} (hs : Below g.items.length s) :
    ((g.states g.itemTable).map g.itemsOf).idxOf? (g.itemsOf s) = g.automaton.number? s := by
  rw [idxOf?_map fun q hq he => itemsOf_injective (below_states hc hq) hs he, Automaton.number?]
  split
  · rename_i hempty
    refine List.idxOf?_eq_none_iff.mpr fun hm => ?_
    rw [isEmpty_of_mem_states hc hm] at hempty
    cases hempty
  · rfl

section

variable (hc : g.Checked) {rounds : Nat} (hr : g.items.length < rounds) {row : List (List Act)}
  {P : Nat → Act → Prop} (h : Fills g.symbols row P)

include hc hr h

/-- The way to the state after a symbol is added, if there is one. -/
theorem exists_addTarget (q : State) (act : Nat → Act) {x : Nat} (hx : x < g.symbols) :
    ∃ row', addTarget g.encoded g.nonterminals rounds ((g.states g.itemTable).map g.itemsOf) (g.itemsOf q) act row x =
        some row' ∧
      Fills g.symbols row' fun y a => P y a ∨ y = x ∧ ∃ n, g.automaton.number? (g.after q x) = some n ∧ a = act n := by
  rw [addTarget, gotoOf_eq hc hr, Option.bind_eq_bind, Option.bind_some,
    idxOf?_itemsOf hc (below_after hc.nonterminals_le q x)]
  cases g.automaton.number? (g.after q x) with
  | none => exact ⟨row, rfl, h.congr fun y a => by simp⟩
  | some n =>
    obtain ⟨row', hadd, hrow'⟩ := h.exists_addAct hx (act n)
    exact ⟨row', hadd, hrow'.congr fun y a => by simp⟩

/-- What an item offers is added to the row of its state. -/
theorem exists_addItem (hn : 0 < g.nonterminals) {q : State} {item : Item} (hi : item ∈ g.items) :
    ∃ row', addItem g.encoded g.nonterminals g.symbols g.goals rounds ((g.states g.itemTable).map g.itemsOf) g.follow
        (g.itemsOf q) row item = some row' ∧
      Fills g.symbols row' fun y a => P y a ∨ g.Offers q item y a := by
  obtain ⟨p, hp, hrow, hd, hnext⟩ := exists_row hi
  have hl : p.lhs < g.nonterminals := hc.lhs_lt p (List.mem_of_getElem? hp)
  rw [addItem, hrow, Option.bind_eq_bind, Option.bind_some, List.length_cons]
  by_cases hdot : item.dot < p.rhs.length
  · rw [if_pos (by omega), List.getElem?_cons_succ]
    rw [List.getElem?_eq_getElem hdot] at hnext ⊢
    have hx : p.rhs[item.dot] < g.symbols := hc.rhs_lt p (List.mem_of_getElem? hp) _ (List.getElem_mem hdot)
    simp only [Offers, hnext, Option.bind_eq_bind, Option.bind_some]
    split
    · obtain ⟨row', hadd, hrow'⟩ := exists_addTarget hc hr h q .shift hx
      exact ⟨row', hadd, hrow'.congr fun y a => by simp [IsTerminal, *]⟩
    · exact ⟨row, rfl, h.congr fun y a => by simp [IsTerminal, *]⟩
  · rw [List.getElem?_eq_none (Nat.le_of_not_lt hdot)] at hnext
    rw [if_neg (by omega)]
    simp only [Offers, hnext]
    by_cases hg : item.production ∈ g.goals
    · have hend : g.endMarker < g.symbols := by
        have := hc.nonterminals_le
        rw [endMarker]
        omega
      obtain ⟨row', hadd, hrow'⟩ := h.exists_addAct hend .accept
      rw [if_pos (List.contains_iff_mem.mpr hg), lastOf?_eq hc hn]
      exact ⟨row', hadd, hrow'.congr fun y a => by simp [hg]⟩
    · obtain ⟨followers, hfol⟩ : ∃ followers, g.follow[p.lhs]? = some followers := by
        rw [follow, List.getElem?_map, List.getElem?_range hl]
        exact ⟨_, rfl⟩
      have hhas : ∀ x, g.automaton.isFollowedBy item.production x = followers.has x := by
        intro x
        simp [Automaton.isFollowedBy, automaton, hp, hfol]
      rw [if_neg (fun hm => hg (List.contains_iff_mem.mp hm)), List.getElem?_cons_zero]
      simp only [Option.bind_eq_bind, Option.bind_some, hfol]
      obtain ⟨row', hfold, hrow'⟩ := exists_foldlM
        (f := fun row symbol => addAct row symbol (.reduce item.production)) (s := row) (l := followers.members)
        (fun done row' => Fills g.symbols row' fun y a => P y a ∨ y ∈ done ∧ a = .reduce item.production)
        (fun done x row' hx hrow' => by
          have hfollows : g.Follows p.lhs x := ⟨followers, hfol, IndexSet.mem_members.mp hx⟩
          obtain ⟨row'', hadd, hrow''⟩ :=
            hrow'.exists_addAct (FollowSets.lt_symbols_of_follows hc hl hfollows) (.reduce item.production)
          refine ⟨row'', hadd, hrow''.congr fun y a => ?_⟩
          rw [List.mem_append, List.mem_singleton, or_and_right, or_assoc])
        (h.congr fun y a => by simp)
      refine ⟨row', hfold, hrow'.congr fun y a => ?_⟩
      rw [IndexSet.mem_members, ← hhas, if_neg hg]

end

/-! ## Cells -/

/-- What is in a closure was led to by something. -/
theorem LeastClosure.exists_base {P : Item → Prop} {item : Item} (h : g.LeastClosure P item) : ∃ k, P k := by
  induction h with
  | base h => exact ⟨_, h⟩
  | start _ _ _ ih => exact ih

/-- If there is a state after a symbol, an item of the state before stands before the symbol. -/
theorem exists_next_of_number? (hc : g.Checked) {q : State} {x n : Nat}
    (h : g.automaton.number? (g.after q x) = some n) : ∃ k ∈ g.itemsOf q, g.next? k = some x := by
  have hne : ¬ ∀ item, ¬ g.Goto q x item := fun hall => by
    rw [← isEmpty_after_iff hc, (states_of_number? h).1] at hall
    cases hall
  obtain ⟨item, hitem⟩ := not_forall_not.mp hne
  obtain ⟨_, k, hk, hx, -⟩ := LeastClosure.exists_base hitem
  exact ⟨k, ((lists_itemsOf q).mem_iff k).mpr hk, hx⟩

/-- The complete items of a state. -/
theorem exists_complete_iff {q : State} {i : Nat} :
    (∃ item ∈ g.itemsOf q, g.next? item = none ∧ item.production = i) ↔
      ∃ p, g.productions[i]? = some p ∧ g.Holds q ⟨i, p.rhs.length⟩ := by
  constructor
  · rintro ⟨⟨i, d⟩, hi, hnone, rfl⟩
    have hq := ((lists_itemsOf q).mem_iff _).mp hi
    obtain ⟨p, hp, -, hd, hnext⟩ := exists_row hq.mem_items
    rw [hnone, eq_comm, List.getElem?_eq_none_iff] at hnext
    exact ⟨p, hp, by rwa [← Nat.le_antisymm hd hnext]⟩
  · rintro ⟨p, hp, hq⟩
    refine ⟨_, ((lists_itemsOf q).mem_iff _).mpr hq, ?_, rfl⟩
    rw [next?, hp, Option.bind_some, List.getElem?_eq_none (Nat.le_refl _)]

theorem offers_iff {q : State} {item : Item} {x : Nat} {act : Act} : g.Offers q item x act ↔
    (g.next? item = some x ∧ g.IsTerminal x ∧ ∃ n, g.automaton.number? (g.after q x) = some n ∧ act = .shift n) ∨
      g.next? item = none ∧ (item.production ∈ g.goals ∧ x = g.endMarker ∧ act = .accept ∨
        item.production ∉ g.goals ∧ g.automaton.isFollowedBy item.production x = true ∧
          act = .reduce item.production) := by
  rw [Offers]
  cases g.next? item with
  | none => by_cases hg : item.production ∈ g.goals <;> simp [hg]
  | some s =>
    simp only [Option.some.injEq, reduceCtorEq, false_and, or_false]
    constructor
    · rintro ⟨ht, rfl, h⟩
      exact ⟨rfl, ht, h⟩
    · rintro ⟨rfl, ht, h⟩
      exact ⟨ht, rfl, h⟩

/-- The candidates of a cell are the way over its nonterminal and what the items of its state offer. -/
theorem mem_acts_cell (hc : g.Checked) {q : State} {x : Nat} {act : Act} :
    act ∈ (g.cell q x).acts ↔
      (x < g.nonterminals ∧ ∃ n, g.automaton.number? (g.after q x) = some n ∧ act = .goto n) ∨
        ∃ item ∈ g.itemsOf q, g.Offers q item x act := by
  cases act with
  | accept =>
    rw [Cell.mem_acts_accept, accept_cell]
    simp only [offers_iff, reduceCtorEq, and_false, exists_false, false_or, or_false, and_true]
    constructor
    · rintro ⟨hx, i, hg, hi⟩
      obtain ⟨item, hq, hnone, rfl⟩ := exists_complete_iff.mpr hi
      exact ⟨item, hq, hnone, hg, hx⟩
    · rintro ⟨item, hq, hnone, hg, hx⟩
      exact ⟨hx, _, hg, exists_complete_iff.mp ⟨item, hq, hnone, rfl⟩⟩
  | shift n =>
    rw [Cell.mem_acts_shift, shift_cell_eq]
    simp only [offers_iff, reduceCtorEq, Act.shift.injEq, and_false, exists_false, false_or, or_false]
    constructor
    · intro h
      split at h
      · cases h
      · obtain ⟨k, hk, hx⟩ := exists_next_of_number? hc h
        exact ⟨k, hk, hx, Nat.le_of_not_lt ‹_›, n, h, rfl⟩
    · rintro ⟨k, -, -, ht, m, hm, rfl⟩
      rw [if_neg (Nat.not_lt.mpr ht), hm]
  | reduce i =>
    rw [Cell.mem_acts_reduce, mem_reduce_cell]
    simp only [offers_iff, reduceCtorEq, Act.reduce.injEq, and_false, exists_false, false_or]
    constructor
    · rintro ⟨hi, hg, hf⟩
      obtain ⟨item, hq, hnone, rfl⟩ := exists_complete_iff.mpr hi
      exact ⟨item, hq, hnone, hg, hf, rfl⟩
    · rintro ⟨item, hq, hnone, hg, hf, rfl⟩
      exact ⟨exists_complete_iff.mp ⟨item, hq, hnone, rfl⟩, hg, hf⟩
  | goto n =>
    rw [Cell.mem_acts_goto, goto_cell_eq]
    simp only [offers_iff, reduceCtorEq, Act.goto.injEq, and_false, exists_false, or_false]
    constructor
    · intro h
      split at h
      · exact ⟨‹_›, n, h, rfl⟩
      · cases h
    · rintro ⟨hx, m, hm, rfl⟩
      rw [if_pos hx, hm]

/-! ## The table -/

/-- The rows of candidates. -/
def candidates (g : Grammar) (q : State) : List (List Act) := (List.range g.symbols).map fun x => (g.cell q x).acts

theorem pairwise_reduce_cell (q : State) (x : Nat) : (g.cell q x).reduce.Pairwise (· < ·) :=
  (pairwise_completed q).filter _

section

variable (hc : g.Checked) (hn : 0 < g.nonterminals) {rounds : Nat} (hr : g.items.length < rounds)

include hc hn hr

theorem fillRow_eq (q : State) :
    fillRow g.encoded g.nonterminals g.symbols g.goals rounds ((g.states g.itemTable).map g.itemsOf) g.follow
      (g.itemsOf q) (List.replicate g.symbols []) = some (g.candidates q) := by
  obtain ⟨row₁, hgotos, hrow₁⟩ := exists_foldlM (l := List.range g.nonterminals) (s := List.replicate g.symbols [])
    (f := addTarget g.encoded g.nonterminals rounds ((g.states g.itemTable).map g.itemsOf) (g.itemsOf q) .goto)
    (fun done row => Fills g.symbols row fun y a =>
      y ∈ done ∧ ∃ n, g.automaton.number? (g.after q y) = some n ∧ a = .goto n)
    (fun done x row hx hrow => by
      have hx := Nat.lt_of_lt_of_le (List.mem_range.mp hx) hc.nonterminals_le
      obtain ⟨row', hadd, hrow'⟩ := exists_addTarget hc hr hrow q .goto hx
      refine ⟨row', hadd, hrow'.congr fun y a => ?_⟩
      rw [List.mem_append, List.mem_singleton, or_and_right]
      exact or_congr_right (and_congr_right fun he => by rw [he]))
    ((Fills.empty g.symbols).congr fun y a => by simp)
  obtain ⟨row₂, hitems, hrow₂⟩ := exists_foldlM (l := g.itemsOf q) (s := row₁)
    (f := addItem g.encoded g.nonterminals g.symbols g.goals rounds ((g.states g.itemTable).map g.itemsOf) g.follow
      (g.itemsOf q))
    (fun done row => Fills g.symbols row fun y a =>
      (y < g.nonterminals ∧ ∃ n, g.automaton.number? (g.after q y) = some n ∧ a = .goto n) ∨
        ∃ item ∈ done, g.Offers q item y a)
    (fun done item row hi hrow => by
      have hi := (((lists_itemsOf q).mem_iff item).mp hi).mem_items
      obtain ⟨row', hadd, hrow'⟩ := exists_addItem (q := q) hc hr hrow hn hi
      refine ⟨row', hadd, hrow'.congr fun y a => ?_⟩
      simp only [List.mem_append, List.mem_singleton, or_and_right, exists_or, exists_eq_left, or_assoc])
    (hrow₁.congr fun y a => by simp)
  rw [fillRow, hgotos, Option.bind_eq_bind, Option.bind_some, hitems, Option.some.injEq]
  exact hrow₂.eq_map (fun x => Cell.ordered_acts (pairwise_reduce_cell q x)) fun x _ act => mem_acts_cell hc

/-- The table is filled row by row. -/
theorem foldlM_fillState (filled : List (List (List Act))) (states : List State) :
    ((states.map g.itemsOf).zipIdx filled.length).foldlM
        (fillState g.encoded g.nonterminals g.symbols g.goals rounds ((g.states g.itemTable).map g.itemsOf) g.follow)
        (filled ++ List.replicate states.length (List.replicate g.symbols [])) =
      some (filled ++ states.map g.candidates) := by
  induction states generalizing filled with
  | nil => rfl
  | cons q states ih =>
    have hrow : (filled ++ List.replicate (states.length + 1) (List.replicate g.symbols []))[filled.length]? =
        some (List.replicate g.symbols ([] : List Act)) := by
      rw [List.getElem?_append_right (Nat.le_refl _), Nat.sub_self, List.replicate_succ, List.getElem?_cons_zero]
    have hset : (filled ++ List.replicate (states.length + 1) (List.replicate g.symbols [])).set filled.length
          (g.candidates q) =
        (filled ++ [g.candidates q]) ++ List.replicate states.length (List.replicate g.symbols []) := by
      rw [List.set_append_right _ _ (Nat.le_refl _), Nat.sub_self, List.replicate_succ, List.set_cons_zero,
        List.append_assoc, List.singleton_append]
    rw [List.map_cons, List.zipIdx_cons, List.foldlM_cons, List.length_cons, fillState, hrow]
    simp only [Option.bind_eq_bind, Option.bind_some, fillRow_eq hc hn hr q, Option.pure_def, hset]
    have := ih (filled ++ [g.candidates q])
    rw [List.length_append, List.length_singleton] at this
    rw [this, List.map_cons, List.append_assoc, List.singleton_append]

/-- Every cell is filled with its candidates. -/
theorem fillTable_eq :
    fillTable g.encoded g.nonterminals g.symbols g.goals rounds ((g.states g.itemTable).map g.itemsOf) g.follow =
      some ((g.states g.itemTable).map g.candidates) := by
  rw [fillTable, List.length_map]
  exact foldlM_fillState hc hn hr [] (g.states g.itemTable)

end

end Grammar

end Formula.LR
