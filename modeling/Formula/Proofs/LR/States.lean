import Mathlib.Data.List.Nodup
import Mathlib.Data.List.Perm.Subperm
import Formula.Proofs.LR.Item

/-!
# The states of a grammar

`Grammar.states` visits a growing list of states and appends what comes after each. What holds of the list
that comes out:

* `states_goal`: the start state of a goal has the number of the goal;
* `states_after`: the state after a symbol is in the list, unless it is empty;
* `mem_states`: nothing else is in it;
* `nodup_states`, `eq_of_holds`: no state is in it twice, and a state is known by its items.

The second rests on the fuel being enough (`explore_closed`): the states differ, each is a set of items, and
there are no more of those than the fuel allows visits.
-/

namespace Formula.LR

/-! ## Appending what is new -/

theorem getElem?_eq_of_prefix {α : Type} {l m : List α} (h : l <+: m) {i : Nat} (hi : i < l.length) :
    l[i]? = m[i]? := by
  obtain ⟨r, rfl⟩ := h
  exact (List.getElem?_append_left hi).symm

theorem prefix_appendNew (known found : List State) : known <+: appendNew known found := by
  induction found generalizing known with
  | nil => exact List.prefix_refl known
  | cons s found ih =>
    rw [appendNew, List.foldl_cons]
    split
    · exact ih known
    · exact (List.prefix_append known [s]).trans (ih _)

theorem mem_appendNew {known found : List State} {s : State} :
    s ∈ appendNew known found ↔ s ∈ known ∨ s ∈ found := by
  induction found generalizing known with
  | nil => simp [appendNew]
  | cons t found ih =>
    rw [appendNew, List.foldl_cons, ← appendNew, ih, List.mem_cons]
    split
    · rename_i h
      have := List.contains_iff_mem.mp h
      constructor
      · rintro (h | h)
        · exact .inl h
        · exact .inr (.inr h)
      · rintro (h | rfl | h)
        · exact .inl h
        · exact .inl this
        · exact .inr h
    · rw [List.mem_append, List.mem_singleton, or_assoc]

theorem nodup_appendNew {known : List State} (h : known.Nodup) (found : List State) :
    (appendNew known found).Nodup := by
  induction found generalizing known with
  | nil => exact h
  | cons t found ih =>
    rw [appendNew, List.foldl_cons, ← appendNew]
    split
    · exact ih h
    · rename_i ht
      refine ih (List.nodup_append.mpr ⟨h, List.nodup_singleton t, fun a ha b hb => ?_⟩)
      rw [List.mem_singleton.mp hb]
      rintro rfl
      exact ht (List.contains_iff_mem.mpr ha)

/-- Different states are all new to an empty list. -/
theorem appendNew_of_nodup (known found : List State) (h : (known ++ found).Nodup) :
    appendNew known found = known ++ found := by
  induction found generalizing known with
  | nil => simp [appendNew]
  | cons t found ih =>
    have ht : known.contains t = false := by
      rw [Bool.eq_false_iff, Ne, List.contains_iff_mem]
      exact fun hm => (List.nodup_append.mp h).2.2 t hm t List.mem_cons_self rfl
    rw [appendNew, List.foldl_cons, ← appendNew, ht, if_neg Bool.false_ne_true, ih _ (by simpa using h)]
    simp

/-! ## Visiting -/

theorem prefix_explore (t : ItemTable) (fuel visited : Nat) (states : List State) :
    states <+: Grammar.explore t fuel visited states := by
  induction fuel generalizing visited states with
  | zero => exact List.prefix_refl states
  | succ fuel ih =>
    rw [Grammar.explore]
    split
    · exact List.prefix_refl states
    · exact (prefix_appendNew states _).trans (ih _ _)

/-- What holds of the first states and of every state after one of which it holds, holds of all. -/
theorem forall_mem_explore {t : ItemTable} {P : State → Prop}
    (hP : ∀ q, P q → ∀ s ∈ t.gotos q, s.isEmpty = false → P s) {fuel visited : Nat} {states : List State}
    (h : ∀ q ∈ states, P q) : ∀ q ∈ Grammar.explore t fuel visited states, P q := by
  induction fuel generalizing visited states with
  | zero => exact h
  | succ fuel ih =>
    rw [Grammar.explore]
    split
    · exact h
    · rename_i q hq
      refine ih fun s hs => ?_
      rcases mem_appendNew.mp hs with hs | hs
      · exact h s hs
      · obtain ⟨hs, he⟩ := List.mem_filter.mp hs
        exact hP q (h q (List.mem_of_getElem? hq)) s hs (by simpa using he)

theorem nodup_explore {t : ItemTable} {fuel visited : Nat} {states : List State} (h : states.Nodup) :
    (Grammar.explore t fuel visited states).Nodup := by
  induction fuel generalizing visited states with
  | zero => exact h
  | succ fuel ih =>
    rw [Grammar.explore]
    split
    · exact h
    · exact ih (nodup_appendNew h _)

/-- The set has no number from `n` on. -/
def Below (n : Nat) (s : State) : Prop := ∀ i, s.has i = true → i < n

/-- There are no more different sets below `n` than fuel. -/
theorem length_le_of_below {n : Nat} {states : List State} (hd : states.Nodup)
    (hb : ∀ q ∈ states, Below n q) : states.length ≤ 2 ^ n := by
  have hm : (states.map IndexSet.digits).Nodup :=
    hd.map fun s t h => by cases s; cases t; exact congrArg IndexSet.mk h
  have hs : states.map IndexSet.digits ⊆ List.range (2 ^ n) := by
    intro d h
    obtain ⟨q, hq, rfl⟩ := List.mem_map.mp h
    refine List.mem_range.mpr (Nat.lt_pow_two_of_testBit _ fun i hi => ?_)
    by_contra hn
    have := hb q hq i (by simpa [IndexSet.has] using hn)
    omega
  simpa using (List.subperm_of_subset hm hs).length_le

/-- The states after those that were visited are in the list. -/
def Visited (t : ItemTable) (visited : Nat) (states : List State) : Prop :=
  ∀ i < visited, ∀ q, states[i]? = some q → ∀ s ∈ t.gotos q, s.isEmpty = false → s ∈ states

theorem Visited.succ {t : ItemTable} {visited : Nat} {states : List State} (h : Visited t visited states)
    {q : State} (hq : states[visited]? = some q) :
    Visited t (visited + 1) (appendNew states ((t.gotos q).filter (!·.isEmpty))) := by
  intro i hi p hp s hs he
  have hl : visited < states.length := (List.getElem?_eq_some_iff.mp hq).1
  rw [← getElem?_eq_of_prefix (prefix_appendNew states _) (by omega)] at hp
  rw [mem_appendNew]
  rcases Nat.lt_or_ge i visited with hi' | hi'
  · exact .inl (h i hi' p hp s hs he)
  · obtain rfl : i = visited := by omega
    obtain rfl := Option.some.inj (hp.symm.trans hq)
    exact .inr (List.mem_filter.mpr ⟨hs, by simp [he]⟩)

/-- With fuel for every set below `n`, no state is left unvisited. -/
theorem explore_closed {t : ItemTable} {n : Nat} (ht : ∀ q, ∀ s ∈ t.gotos q, Below n s)
    {fuel visited : Nat} {states : List State} (hf : 2 ^ n ≤ fuel + visited) (hd : states.Nodup)
    (hb : ∀ q ∈ states, Below n q) (hv : Visited t visited states) :
    ∀ q ∈ Grammar.explore t fuel visited states, ∀ s ∈ t.gotos q, s.isEmpty = false →
      s ∈ Grammar.explore t fuel visited states := by
  induction fuel generalizing visited states with
  | zero =>
    intro q hq s hs he
    obtain ⟨i, hi⟩ := List.mem_iff_getElem?.mp hq
    have := (List.getElem?_eq_some_iff.mp hi).1
    have := length_le_of_below hd hb
    exact hv i (by simp only [Grammar.explore] at *; omega) q hi s hs he
  | succ fuel ih =>
    rw [Grammar.explore]
    split
    · rename_i hn
      intro q hq s hs he
      obtain ⟨i, hi⟩ := List.mem_iff_getElem?.mp hq
      have := (List.getElem?_eq_some_iff.mp hi).1
      have := List.getElem?_eq_none_iff.mp hn
      exact hv i (by omega) q hi s hs he
    · rename_i q hq
      refine ih (by omega) (nodup_appendNew hd _) (fun s hs => ?_) (hv.succ hq)
      rcases mem_appendNew.mp hs with hs | hs
      · exact hb s hs
      · exact ht q s (List.mem_filter.mp hs).1

namespace Grammar

variable {g : Grammar}

/-- The state after a symbol. -/
def after (g : Grammar) (state : State) (x : Nat) : State :=
  g.itemTable.advance state (g.before x)

theorem mem_gotos {q s : State} : s ∈ g.itemTable.gotos q ↔ ∃ x < g.symbols, g.after q x = s := by
  simp only [ItemTable.gotos, itemTable, List.map_map, List.mem_map, List.mem_range, Function.comp]
  rfl

theorem after_nonempty (hn : g.nonterminals ≤ g.symbols) {q : State} {k : Item} {x : Nat}
    (hk : g.Holds q k) (hx : g.next? k = some x) : (g.after q x).isEmpty = false := by
  have h : g.Holds (g.after q x) ⟨k.production, k.dot + 1⟩ :=
    (holds_advance_iff hn).mpr (.inl ⟨k, hk, hx, rfl⟩)
  obtain ⟨n, -, h⟩ := h
  exact Bool.eq_false_iff.mpr (not_isEmpty_iff.mpr ⟨n, h⟩)

/-! ## Sets of items -/

theorem below_close (hn : g.nonterminals ≤ g.symbols) {items : State} (h : Below g.items.length items) :
    Below g.items.length (g.itemTable.close items) := by
  intro i hi
  rcases (has_close hn).mp hi with hi | ⟨_, -, -, ho⟩
  · exact h i hi
  · obtain ⟨item, -, hi, -⟩ := has_opening.mp ho
    exact (List.getElem?_eq_some_iff.mp hi).1

theorem below_start (hn : g.nonterminals ≤ g.symbols) (goal : Nat) :
    Below g.items.length (g.start g.itemTable goal) := by
  refine below_close hn fun i hi => ?_
  rw [IndexSet.has_ofList, Option.mem_toList] at hi
  exact (List.findIdx?_eq_some_iff_getElem.mp hi).1

theorem below_after (hn : g.nonterminals ≤ g.symbols) (q : State) (x : Nat) : Below g.items.length (g.after q x) := by
  intro i hi
  refine below_close hn (fun j hj => ?_) i ((has_advance hn).mp hi)
  simp only [IndexSet.has_next, IndexSet.has_inter, Bool.and_eq_true, decide_eq_true_eq] at hj
  obtain ⟨hj, -, hb⟩ := hj
  obtain ⟨k, hk, hx⟩ := has_before.mp hb
  have := (List.getElem?_eq_some_iff.mp (items_getElem?_succ hk hx)).1
  omega

theorem below_gotos (hn : g.nonterminals ≤ g.symbols) (q : State) :
    ∀ s ∈ g.itemTable.gotos q, Below g.items.length s := by
  intro s hs
  obtain ⟨x, -, rfl⟩ := mem_gotos.mp hs
  exact below_after hn q x

/-! ## Goals stand apart -/

/-- What may begin where a dot stands is on a right-hand side. -/
theorem mem_rhs_of_begins {k : Item} {a b : Nat} (hk : g.next? k = some a) (hb : g.Begins a b) :
    ∃ p ∈ g.productions, b ∈ p.rhs := by
  cases hb with
  | refl =>
    obtain ⟨p, hp, hx⟩ := Option.bind_eq_some_iff.mp hk
    exact ⟨p, List.mem_of_getElem? hp, List.mem_of_getElem? hx⟩
  | tail _ he =>
    obtain ⟨-, p, hp, -, rest, hr⟩ := edge_beginnings.mp he
    exact ⟨p, hp, by rw [hr]; exact List.mem_cons_self⟩

/-- The start of a goal is in no closure by way of another item. -/
theorem Closure.goal (ha : g.Augmented) {P : Item → Prop} {goal : Nat} (hg : goal ∈ g.goals)
    (h : g.Closure P ⟨goal, 0⟩) : P ⟨goal, 0⟩ := by
  refine h.resolve_right ?_
  rintro ⟨-, p, hp, k, a, -, hk, -, hb⟩
  obtain ⟨r, hr, hm⟩ := mem_rhs_of_begins hk hb
  exact ha.fresh r hr _ hm (List.mem_filterMap.mpr ⟨goal, hg, by rw [hp]; rfl⟩)

theorem exists_goal (ha : g.Augmented) {goal : Nat} (hg : goal ∈ g.goals) :
    ∃ p x, g.productions[goal]? = some p ∧ p.rhs = [x] :=
  ha.checked.goal goal hg

/-- Different goals have different start states. -/
theorem nodup_starts (ha : g.Augmented) : (g.goals.map (g.start g.itemTable)).Nodup := by
  refine ha.goals_nodup.map_on fun a hA b hB h => ?_
  obtain ⟨p, -, hp, -⟩ := exists_goal ha hA
  obtain ⟨r, -, hr, -⟩ := exists_goal ha hB
  have hn := ha.checked.nonterminals_le
  have hs : g.Holds (g.start g.itemTable a) ⟨a, 0⟩ := (holds_start_iff hn hp).mpr (.inl rfl)
  rw [h, holds_start_iff hn hr] at hs
  exact congrArg Item.production (Closure.goal (P := (· = ⟨b, 0⟩)) ha hA hs)

/-! ## The list of states -/

/-- The start state of a goal has the number of the goal. -/
theorem states_goal (ha : g.Augmented) {i goal : Nat} (h : g.goals[i]? = some goal) :
    (g.states g.itemTable)[i]? = some (g.start g.itemTable goal) := by
  have hs := appendNew_of_nodup [] (g.goals.map (g.start g.itemTable))
    (by simpa using nodup_starts ha)
  have hl := (List.getElem?_eq_some_iff.mp h).1
  rw [states, ← getElem?_eq_of_prefix (prefix_explore _ _ _ _) (by simp [hs, hl]), hs,
    List.nil_append, List.getElem?_map, h, Option.map_some]

/-- The state after a symbol is in the list, unless it is empty. -/
theorem states_after (hc : g.Checked) {q : State} (hq : q ∈ g.states g.itemTable) {x : Nat}
    (hx : x < g.symbols) (he : (g.after q x).isEmpty = false) : g.after q x ∈ g.states g.itemTable := by
  have hn := hc.nonterminals_le
  refine explore_closed (below_gotos hn) (Nat.le_refl _) (nodup_appendNew List.nodup_nil _)
    (fun s hs => ?_) (fun i hi => absurd hi (Nat.not_lt_zero i)) q hq _ (mem_gotos.mpr ⟨x, hx, rfl⟩) he
  obtain ⟨goal, -, rfl⟩ := List.mem_map.mp ((mem_appendNew.mp hs).resolve_left List.not_mem_nil)
  exact below_start hn goal

/-- A state is the start of a goal or comes after another. -/
theorem mem_states {q : State} (hq : q ∈ g.states g.itemTable) :
    (∃ goal ∈ g.goals, g.start g.itemTable goal = q) ∨ ∃ s x, g.after s x = q := by
  refine forall_mem_explore
    (P := fun q => (∃ goal ∈ g.goals, g.start g.itemTable goal = q) ∨ ∃ s x, g.after s x = q)
    (fun q _ s hs _ => ?_) (fun s hs => ?_) q hq
  · obtain ⟨x, -, hx⟩ := mem_gotos.mp hs
    exact .inr ⟨q, x, hx⟩
  · exact .inl (List.mem_map.mp ((mem_appendNew.mp hs).resolve_left List.not_mem_nil))

/-- No state is empty. -/
theorem isEmpty_of_mem_states (hc : g.Checked) {q : State} (hq : q ∈ g.states g.itemTable) :
    q.isEmpty = false := by
  refine forall_mem_explore (P := fun q => q.isEmpty = false) (fun _ _ s _ hs => hs) (fun s hs => ?_) q hq
  obtain ⟨goal, hg, rfl⟩ := List.mem_map.mp ((mem_appendNew.mp hs).resolve_left List.not_mem_nil)
  obtain ⟨p, -, hp, -⟩ := hc.goal goal hg
  obtain ⟨n, -, hn⟩ := (holds_start_iff hc.nonterminals_le hp).mpr (.inl rfl)
  exact Bool.eq_false_iff.mpr (not_isEmpty_iff.mpr ⟨n, hn⟩)

/-- No state is in the list twice. -/
theorem nodup_states : (g.states g.itemTable).Nodup :=
  nodup_explore (nodup_appendNew List.nodup_nil _)

theorem below_states (hc : g.Checked) {q : State} (hq : q ∈ g.states g.itemTable) : Below g.items.length q := by
  rcases mem_states hq with ⟨goal, -, rfl⟩ | ⟨s, x, rfl⟩
  · exact below_start hc.nonterminals_le goal
  · exact below_after hc.nonterminals_le s x

/-- A state is known by its items. -/
theorem eq_of_holds {q s : State} (hq : Below g.items.length q) (hs : Below g.items.length s)
    (h : ∀ item, g.Holds q item ↔ g.Holds s item) : q = s := by
  have hsub : ∀ {q s : State}, Below g.items.length q → (∀ item, g.Holds q item → g.Holds s item) →
      ∀ i, q.has i = true → s.has i = true := by
    intro q s hq h i hi
    obtain ⟨m, hm, hs⟩ := h _ ⟨i, List.getElem?_eq_getElem (hq i hi), hi⟩
    rwa [items_number hm (List.getElem?_eq_getElem (hq i hi))] at hs
  exact IndexSet.ext fun i => Bool.eq_iff_iff.mpr
    ⟨hsub hq (fun item => (h item).mp) i, hsub hs (fun item => (h item).mpr) i⟩

/-- In a state, each production begins where the dot stands before its left-hand side. -/
theorem holds_start_of_next (ha : g.Augmented) {q : State} (hq : q ∈ g.states g.itemTable) {k : Item}
    (hk : g.Holds q k) {i : Nat} {p : Production} (hp : g.productions[i]? = some p)
    (hx : g.next? k = some p.lhs) : g.Holds q ⟨i, 0⟩ := by
  have hn := ha.checked.nonterminals_le
  have hl := ha.checked.lhs_lt p (List.mem_of_getElem? hp)
  rcases mem_states hq with ⟨goal, hg, rfl⟩ | ⟨s, x, rfl⟩
  · obtain ⟨r, -, hr, -⟩ := exists_goal ha hg
    rw [holds_start_iff hn hr] at hk ⊢
    exact hk.start hx hl hp
  · rw [after, holds_advance_iff hn] at hk ⊢
    exact hk.start hx hl hp

end Grammar

end Formula.LR
