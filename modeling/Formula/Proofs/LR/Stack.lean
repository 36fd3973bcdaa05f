import Formula.Proofs.LR.States

/-!
# The stack of a parser

`Stacked` says how the stack of states hangs together with the symbols of the tokens: each state comes after
the one below it. Then every item that the top state holds was read off the stack, as far down as the stack reaches
(`Stacked.read`): the symbols before its dot are the top symbols, and the state below them holds the item with the
dot at its start. Above the start state of a goal the stack always reaches down far enough (`Stacked.item`). For a
finished goal there is nothing else on the stack (`Stacked.goal`).
-/

namespace Formula.LR.Grammar

variable {g : Grammar}

/-- The states on a stack and the symbols between them, top in front. -/
inductive Stacked (g : Grammar) (bottom : Nat) : List Nat → List Nat → Prop where
  | start : Stacked g bottom [bottom] []
  | push {n x : Nat} {q : State} {states row : List Nat} (h : Stacked g bottom states row)
      (hq : (g.states g.itemTable)[states.headD 0]? = some q)
      (hn : (g.states g.itemTable)[n]? = some (g.after q x)) :
      Stacked g bottom (n :: states) (x :: row)

namespace Stacked

variable {bottom : Nat} {states row : List Nat}

theorem length_eq (h : g.Stacked bottom states row) : states.length = row.length + 1 := by
  induction h with
  | start => rfl
  | push _ _ _ ih => exact congrArg (· + 1) ih

/-- The top of a stack is the number of a state. -/
theorem exists_top {s : State} (hb : (g.states g.itemTable)[bottom]? = some s)
    (h : g.Stacked bottom states row) : ∃ q, (g.states g.itemTable)[states.headD 0]? = some q := by
  cases h with
  | start => exact ⟨s, hb⟩
  | push _ _ hn => exact ⟨_, hn⟩

/-- A stack without its top symbols is a stack. -/
theorem drop (h : g.Stacked bottom states row) {k : Nat} (hk : k ≤ row.length) :
    g.Stacked bottom (states.drop k) (row.drop k) := by
  induction k generalizing states row with
  | zero => exact h
  | succ k ih =>
    cases h with
    | start => exact absurd hk (Nat.not_succ_le_zero k)
    | push h _ _ => exact ih h (Nat.le_of_succ_le_succ hk)

/-- As far as the stack reaches down, what the top state holds was read off it. Nothing is asked of the bottom. -/
theorem read (hn : g.nonterminals ≤ g.symbols) (h : g.Stacked bottom states row) {q : State}
    (hq : (g.states g.itemTable)[states.headD 0]? = some q) {i d : Nat} {p : Production}
    (hp : g.productions[i]? = some p) (hi : g.Holds q ⟨i, d⟩) (hd : d ≤ row.length) :
    row.take d = (p.rhs.take d).reverse ∧
      ∃ s, (g.states g.itemTable)[(states.drop d).headD 0]? = some s ∧ g.Holds s ⟨i, 0⟩ := by
  induction d generalizing q states row with
  | zero => exact ⟨rfl, q, hq, hi⟩
  | succ d ih =>
    cases h with
    | start => exact absurd hd (Nat.not_succ_le_zero d)
    | push h hs hm =>
      obtain rfl := Option.some.inj (hm.symm.trans hq)
      obtain ⟨⟨j, e⟩, hk, hx, he⟩ :=
        ((holds_advance_iff hn).mp hi).of_dot_pos (Nat.succ_ne_zero d)
      obtain ⟨rfl, rfl⟩ : i = j ∧ d = e := by simpa using he
      obtain ⟨ht, hbelow⟩ := ih h hs hk (Nat.le_of_succ_le_succ hd)
      rw [next?, hp, Option.bind_some] at hx
      refine ⟨?_, hbelow⟩
      rw [List.take_succ_cons, ht, List.take_add_one, hx, Option.toList_some, List.reverse_append,
        List.reverse_singleton, List.singleton_append]

/-- Above the start state of a goal the stack reaches down far enough. -/
theorem dot_le (hn : g.nonterminals ≤ g.symbols) {goal : Nat} {r : Production}
    (hb : (g.states g.itemTable)[bottom]? = some (g.start g.itemTable goal))
    (hr : g.productions[goal]? = some r) (h : g.Stacked bottom states row) {q : State}
    (hq : (g.states g.itemTable)[states.headD 0]? = some q) {i d : Nat} (hi : g.Holds q ⟨i, d⟩) :
    d ≤ row.length := by
  induction d generalizing q states row with
  | zero => exact Nat.zero_le _
  | succ d ih =>
    cases h with
    | start =>
      -- no dot has moved in a start state
      obtain rfl := Option.some.inj (hb.symm.trans hq)
      have := ((holds_start_iff hn hr).mp hi).of_dot_pos (Nat.succ_ne_zero d)
      cases this
    | push h hs hm =>
      obtain rfl := Option.some.inj (hm.symm.trans hq)
      obtain ⟨⟨j, e⟩, hk, -, he⟩ :=
        ((holds_advance_iff hn).mp hi).of_dot_pos (Nat.succ_ne_zero d)
      obtain ⟨rfl, rfl⟩ : i = j ∧ d = e := by simpa using he
      exact Nat.succ_le_succ (ih h hs hk)

/-- What the top state holds was read off the stack. -/
theorem item (hn : g.nonterminals ≤ g.symbols) {goal : Nat} {r : Production}
    (hb : (g.states g.itemTable)[bottom]? = some (g.start g.itemTable goal))
    (hr : g.productions[goal]? = some r) (h : g.Stacked bottom states row) {q : State}
    (hq : (g.states g.itemTable)[states.headD 0]? = some q) {i d : Nat} {p : Production}
    (hp : g.productions[i]? = some p) (hi : g.Holds q ⟨i, d⟩) :
    d ≤ row.length ∧ row.take d = (p.rhs.take d).reverse ∧
      ∃ s, (g.states g.itemTable)[(states.drop d).headD 0]? = some s ∧ g.Holds s ⟨i, 0⟩ :=
  have hd := h.dot_le hn hb hr hq hi
  ⟨hd, h.read hn hq hp hi hd⟩

/-- A state that holds the start of a goal is the bottom of the stack, made for that goal. -/
theorem eq_bottom (ha : g.Augmented) {goal goal' : Nat} (hg : goal ∈ g.goals)
    (hb : (g.states g.itemTable)[bottom]? = some (g.start g.itemTable goal))
    (h : g.Stacked bottom states row) {q : State}
    (hq : (g.states g.itemTable)[states.headD 0]? = some q) (hg' : goal' ∈ g.goals)
    (hi : g.Holds q ⟨goal', 0⟩) : goal' = goal ∧ row = [] := by
  have hn := ha.checked.nonterminals_le
  obtain ⟨r, -, hr, -⟩ := exists_goal ha hg
  cases h with
  | start =>
    obtain rfl := Option.some.inj (hb.symm.trans hq)
    have := Closure.goal (P := (· = ⟨goal, 0⟩)) ha hg' ((holds_start_iff hn hr).mp hi)
    exact ⟨congrArg Item.production this, rfl⟩
  | push _ _ hm =>
    obtain rfl := Option.some.inj (hm.symm.trans hq)
    obtain ⟨k, -, -, he⟩ := Closure.goal ha hg' ((holds_advance_iff hn).mp hi)
    exact absurd (congrArg Item.dot he) (Nat.succ_ne_zero _).symm

/-- When the top state has read a goal to its end, nothing else is on the stack, and the goal is the one that
the bottom state was made for. -/
theorem goal (ha : g.Augmented) {goal goal' : Nat} (hg : goal ∈ g.goals)
    (hb : (g.states g.itemTable)[bottom]? = some (g.start g.itemTable goal))
    (h : g.Stacked bottom states row) {q : State}
    (hq : (g.states g.itemTable)[states.headD 0]? = some q) (hg' : goal' ∈ g.goals)
    {p : Production} (hp : g.productions[goal']? = some p) (hi : g.Holds q ⟨goal', p.rhs.length⟩) :
    goal' = goal ∧ row = p.rhs := by
  obtain ⟨r, -, hr, -⟩ := exists_goal ha hg
  obtain ⟨p', x, hp', hx⟩ := exists_goal ha hg'
  obtain rfl := Option.some.inj (hp.symm.trans hp')
  obtain ⟨hl, ht, s, hs, hh⟩ := item ha.checked.nonterminals_le hb hr h hq hp hi
  obtain ⟨rfl, he⟩ := (h.drop hl).eq_bottom ha hg hb hs hg' hh
  refine ⟨rfl, ?_⟩
  calc row = row.take p.rhs.length ++ row.drop p.rhs.length := (List.take_append_drop _ row).symm
    _ = p.rhs := by rw [ht, he, hx]; rfl

end Stacked

end Formula.LR.Grammar
