import Mathlib.Order.Bounds.Defs
import Formula.Proofs.LR.Prescribed

/-!
# The canonical collection

The states of a grammar, seen as sets of items, are exactly the sets that can be reached from its goals. `closure` and
`goto` say what a closure and a step are without the numbers of items: a closure is the least set that has the items and
is closed under what may begin (`isLeast_closure`), and a step is the closure of the items whose dot moves. `Reached`
are the sets that any number of steps lead to. The operations on states compute these (`itemSet_close`,
`itemSet_after`, `itemSet_start`), the search for states finds nothing else (`reached_of_mem_states`) and misses nothing
(`exists_state_of_reached`), and it comes to an end once it has visited every state that it found
(`explore_eq_of_length_le`).
-/

namespace Formula.LR

namespace Grammar

/-! ## Visits -/

/-- Where no state is left, nothing more is found. -/
theorem explore_of_none {t : ItemTable} {visited : Nat} {states : List State} (h : states[visited]? = none)
    (fuel : Nat) : explore t fuel visited states = states := by
  cases fuel with
  | zero => rfl
  | succ fuel => rw [explore, h]

/-- The search may be broken off after some visits and taken up again. -/
theorem explore_add (t : ItemTable) (m k visited : Nat) (states : List State) :
    explore t (m + k) visited states = explore t k (visited + m) (explore t m visited states) := by
  induction m generalizing visited states with
  | zero => rw [Nat.zero_add, Nat.add_zero, explore]
  | succ m ih =>
    rw [Nat.succ_add, explore, explore]
    cases h : states[visited]? with
    | none =>
      have hlater : states[visited + (m + 1)]? = none := by
        rw [List.getElem?_eq_none_iff] at h ⊢
        omega
      exact (explore_of_none hlater k).symm
    | some q =>
      dsimp only
      rw [ih, Nat.add_right_comm, Nat.add_assoc]

/-- With a visit for every state that is found, the search has come to its end: it finds the same with any number of
visits that is no smaller. -/
theorem explore_eq_of_length_le {t : ItemTable} {fuel fuel' : Nat} {states : List State}
    (h : (explore t fuel 0 states).length ≤ fuel) (h' : (explore t fuel 0 states).length ≤ fuel') :
    explore t fuel' 0 states = explore t fuel 0 states := by
  generalize hn : (explore t fuel 0 states).length = n at h h'
  -- after `n` visits no state is left
  have hfirst : explore t n 0 states <+: explore t fuel 0 states := by
    obtain ⟨k, rfl⟩ := Nat.exists_eq_add_of_le h
    rw [explore_add]
    exact prefix_explore _ _ _ _
  have hnone : (explore t n 0 states)[0 + n]? = none := by
    rw [Nat.zero_add, List.getElem?_eq_none_iff]
    exact hn ▸ hfirst.length_le
  have hend : ∀ m, n ≤ m → explore t m 0 states = explore t n 0 states := by
    intro m hm
    obtain ⟨k, rfl⟩ := Nat.exists_eq_add_of_le hm
    rw [explore_add, explore_of_none hnone]
  rw [hend fuel' h', hend fuel h]

/-! ## Sets of items -/

variable (g : Grammar)

/-- The items of a state. -/
def itemSet (q : State) : Set Item := {item | g.Holds q item}

/-- With every item whose dot stands before a nonterminal, the set has the starts of all productions of it. -/
def IsClosed (I : Set Item) : Prop :=
  ∀ k ∈ I, ∀ a, g.next? k = some a → a < g.nonterminals →
    ∀ i p, g.productions[i]? = some p → p.lhs = a → (⟨i, 0⟩ : Item) ∈ I

/-- The items with all those that may begin behind a dot. -/
def closure (I : Set Item) : Set Item := {item | g.LeastClosure (· ∈ I) item}

/-- The items after a symbol. -/
def goto (I : Set Item) (x : Nat) : Set Item := g.closure {item | g.Moved (· ∈ I) x item}

/-- The sets that some steps lead to from the closure of the start of a goal. -/
inductive Reached : Set Item → Prop where
  | start {goal : Nat} (hg : goal ∈ g.goals) : Reached (g.closure {⟨goal, 0⟩})
  | goto {I : Set Item} {x : Nat} (h : Reached I) (hx : x < g.symbols) : Reached (g.goto I x)

/-- The sets of items of all states, in the order of their numbers. -/
def collection : List (Set Item) := (g.states g.itemTable).map g.itemSet

variable {g}

theorem isLeast_closure (hc : g.Checked) (I : Set Item) : IsLeast {J | I ⊆ J ∧ g.IsClosed J} (g.closure I) := by
  refine ⟨⟨fun item h => .base h, ?_⟩, fun J hJ item h => ?_⟩
  · rintro k hk a hx - i p hp rfl
    exact .start hk hx hp
  · obtain ⟨hsub, hclosed⟩ := hJ
    induction h with
    | base h => exact hsub h
    | @start k i p _ hx hp ih =>
      exact hclosed k ih _ hx (hc.lhs_lt p (List.mem_of_getElem? hp)) i p hp rfl

/-- There is nothing after a symbol without items before it. -/
theorem nonempty_of_goto {I : Set Item} {x : Nat} (h : (g.goto I x).Nonempty) : I.Nonempty := by
  obtain ⟨item, h⟩ := h
  induction h with
  | base h =>
    obtain ⟨k, hk, -⟩ := h
    exact ⟨k, hk⟩
  | start _ _ _ ih => exact ih

/-! ## The items of states -/

section

variable (hc : g.Checked)

include hc

theorem itemSet_close (items : State) : g.itemSet (g.itemTable.close items) = g.closure (g.itemSet items) := by
  ext item
  exact (holds_close_iff hc.nonterminals_le).trans (closure_iff hc)

theorem itemSet_after (q : State) (x : Nat) : g.itemSet (g.after q x) = g.goto (g.itemSet q) x := by
  ext item
  exact holds_after_iff hc

theorem itemSet_start {goal : Nat} (hg : goal ∈ g.goals) :
    g.itemSet (g.start g.itemTable goal) = g.closure {⟨goal, 0⟩} := by
  obtain ⟨p, -, hp, -⟩ := hc.goal goal hg
  ext item
  exact (holds_start_iff hc.nonterminals_le hp).trans (closure_iff hc)

omit hc in
theorem itemSet_nonempty_iff {q : State} (hq : Below g.items.length q) :
    (g.itemSet q).Nonempty ↔ q.isEmpty = false := by
  rw [← Bool.not_eq_true, not_isEmpty_iff]
  constructor
  · rintro ⟨item, n, -, hn⟩
    exact ⟨n, hn⟩
  · rintro ⟨n, hn⟩
    exact ⟨_, n, List.getElem?_eq_getElem (hq n hn), hn⟩

/-- A state is reached. -/
theorem reached_of_mem_states {q : State} (hq : q ∈ g.states g.itemTable) : g.Reached (g.itemSet q) := by
  refine forall_mem_explore (P := fun q => g.Reached (g.itemSet q)) (fun q h s hs _ => ?_) (fun s hs => ?_) q hq
  · obtain ⟨x, hx, rfl⟩ := mem_gotos.mp hs
    rw [itemSet_after hc]
    exact .goto h hx
  · obtain ⟨goal, hg, rfl⟩ := List.mem_map.mp ((mem_appendNew.mp hs).resolve_left List.not_mem_nil)
    rw [itemSet_start hc hg]
    exact .start hg

/-- A set that is reached and not empty belongs to a state. -/
theorem exists_state_of_reached {I : Set Item} (h : g.Reached I) (hI : I.Nonempty) :
    ∃ q ∈ g.states g.itemTable, g.itemSet q = I := by
  induction h with
  | @start goal hg =>
    refine ⟨_, (prefix_explore _ _ _ _).subset (mem_appendNew.mpr (.inr ?_)), itemSet_start hc hg⟩
    exact List.mem_map_of_mem hg
  | @goto _ x _ hx ih =>
    obtain ⟨q, hq, rfl⟩ := ih (nonempty_of_goto hI)
    have hafter := itemSet_after hc q x
    rw [← hafter, itemSet_nonempty_iff (below_after hc.nonterminals_le q x)] at hI
    exact ⟨_, states_after hc hq hx hI, hafter⟩

/-- No two states have the same items. -/
theorem nodup_collection : g.collection.Nodup := by
  refine nodup_states.map_on fun q hq s hs h => ?_
  exact eq_of_holds (below_states hc hq) (below_states hc hs) fun item => Set.ext_iff.mp h item

theorem mem_collection_iff {I : Set Item} : I ∈ g.collection ↔ g.Reached I ∧ I.Nonempty := by
  rw [collection, List.mem_map]
  constructor
  · rintro ⟨q, hq, rfl⟩
    exact ⟨reached_of_mem_states hc hq,
      (itemSet_nonempty_iff (below_states hc hq)).mpr (isEmpty_of_mem_states hc hq)⟩
  · rintro ⟨h, hI⟩
    exact exists_state_of_reached hc h hI

/-- What is after a symbol belongs to the state with the number that the symbol leads to. -/
theorem exists_number_of_goto {q : State} (hq : q ∈ g.states g.itemTable) {x : Nat} (hx : x < g.symbols)
    (h : (g.goto (g.itemSet q) x).Nonempty) :
    ∃ n, g.automaton.number? (g.after q x) = some n ∧ g.collection[n]? = some (g.goto (g.itemSet q) x) := by
  rw [← itemSet_after hc, itemSet_nonempty_iff (below_after hc.nonterminals_le q x)] at h
  obtain ⟨n, hn⟩ := exists_number? (states_after hc hq hx h) h
  refine ⟨n, hn, ?_⟩
  rw [collection, List.getElem?_map, (states_of_number? hn).2, Option.map_some, itemSet_after hc]

/-- There are enough visits for all states. -/
theorem length_states_le : (g.states g.itemTable).length ≤ Nat.pow 2 g.items.length :=
  length_le_of_below nodup_states fun _ => below_states hc

end

end Grammar

end Formula.LR
