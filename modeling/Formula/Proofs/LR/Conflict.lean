import Formula.Proofs.LR.Follow
import Formula.Proofs.LR.Table

/-!
# Tables without conflicts

When the tables report no conflicts, no cell had any (`conflicts_cell`), and what stands in a cell can be told
from any item of its state: an item before a terminal is a shift (`lookup_shift`), a finished one before a
terminal that follows it is a reduction (`lookup_reduce`). The one exception is counted as no conflict: where
a goal is finished and the input ends, acceptance hides everything else (`lookup_accept`).
-/

namespace Formula.LR

/-! ## The sum of the conflicts -/

theorem Conflicts.add_eq_zero {a b : Conflicts} (h : a + b = ⟨0, 0, 0⟩) : a = ⟨0, 0, 0⟩ ∧ b = ⟨0, 0, 0⟩ := by
  obtain ⟨a₁, a₂, a₃⟩ := a
  obtain ⟨b₁, b₂, b₃⟩ := b
  have h : (⟨a₁ + b₁, a₂ + b₂, a₃ + b₃⟩ : Conflicts) = ⟨0, 0, 0⟩ := h
  simp only [Conflicts.mk.injEq, Nat.add_eq_zero_iff] at h ⊢
  obtain ⟨⟨h₁, k₁⟩, ⟨h₂, k₂⟩, h₃, k₃⟩ := h
  exact ⟨⟨h₁, h₂, h₃⟩, k₁, k₂, k₃⟩

/-- A sum without conflicts has no summand with any. -/
theorem Conflicts.foldl_eq_zero {cs : List Conflicts} {a : Conflicts}
    (h : cs.foldl (· + ·) a = ⟨0, 0, 0⟩) : a = ⟨0, 0, 0⟩ ∧ ∀ c ∈ cs, c = ⟨0, 0, 0⟩ := by
  induction cs generalizing a with
  | nil => exact ⟨h, by simp⟩
  | cons c cs ih =>
    obtain ⟨hac, hcs⟩ := ih h
    obtain ⟨ha, hc⟩ := add_eq_zero hac
    exact ⟨ha, List.forall_mem_cons.mpr ⟨hc, hcs⟩⟩

variable {g : Grammar}

theorem conflicts_build : (Tables.build g).conflicts =
    (((g.states g.itemTable).map fun q =>
      (List.range g.symbols).map fun x => (g.cell q x, x)).flatten.map
        fun (c, x) => g.conflicts x c).foldl (· + ·) {} := by
  simp only [Tables.build, Grammar.row_eq, Grammar.zipIdx_map_range]
  rfl

/-- When the tables report no conflicts, no cell had any. -/
theorem conflicts_cell (h : (Tables.build g).conflicts = ⟨0, 0, 0⟩) {q : State}
    (hq : q ∈ g.states g.itemTable) {x : Nat} (hx : x < g.symbols) :
    g.conflicts x (g.cell q x) = ⟨0, 0, 0⟩ := by
  rw [conflicts_build] at h
  refine (Conflicts.foldl_eq_zero h).2 _ (List.mem_map.mpr ⟨(g.cell q x, x), ?_, rfl⟩)
  exact List.mem_flatten.mpr ⟨_, List.mem_map.mpr ⟨q, hq, rfl⟩,
    List.mem_map.mpr ⟨x, List.mem_range.mpr hx, rfl⟩⟩

namespace Grammar

/-! ## Cells without conflicts -/

/-- A shift and a reduction are a conflict. -/
theorem reduce_eq_nil {x s : Nat} {c : Cell} (h : g.conflicts x c = ⟨0, 0, 0⟩) (ha : c.accept = false)
    (hg : c.goto = none) (hs : c.shift = some s) : c.reduce = [] := by
  unfold conflicts at h
  simp only [ha, hg, hs, Bool.false_eq_true, if_false] at h
  cases hr : c.reduce with
  | nil => rfl
  | cons i is =>
    rw [hr] at h
    dsimp only at h
    split at h <;> simp at h

/-- Two reductions are a conflict. -/
theorem reduce_eq_singleton {x i : Nat} {c : Cell} (h : g.conflicts x c = ⟨0, 0, 0⟩)
    (ha : c.accept = false) (hi : i ∈ c.reduce) : c.reduce = [i] := by
  have hl : c.reduce.length - 1 = 0 := by
    unfold conflicts at h
    simp only [ha, Bool.false_eq_true, if_false] at h
    split at h
    · split at h <;> simp at h
    · exact congrArg Conflicts.reduceReduce h
  obtain ⟨j, hj⟩ : ∃ j, c.reduce = [j] := by
    have := List.length_pos_of_mem hi
    exact List.length_eq_one_iff.mp (by omega)
  rw [hj] at hi ⊢
  rw [List.mem_singleton.mp hi]

theorem cell_shift {q : State} {x n : Nat} (hx : g.IsTerminal x)
    (hn : g.automaton.number? (g.after q x) = some n) :
    (g.cell q x).shift = some n ∧ (g.cell q x).goto = none := by
  rw [shift_cell_eq, goto_cell_eq, if_neg (Nat.not_lt_of_le hx), if_neg (Nat.not_lt_of_le hx)]
  exact ⟨hn, rfl⟩

theorem cell_goto {q : State} {x n : Nat} (hx : x < g.nonterminals)
    (hn : g.automaton.number? (g.after q x) = some n) : (g.cell q x).goto = some n := by
  rw [goto_cell_eq, if_pos hx, hn]

theorem isFollowedBy_iff {i x : Nat} {p : Production} (hp : g.productions[i]? = some p) :
    g.automaton.isFollowedBy i x = true ↔ g.Follows p.lhs x := by
  simp only [Automaton.isFollowedBy, automaton, hp, Option.bind_some, Option.any_eq_true]
  rfl

/-- The state after the symbol behind a dot has a number. -/
theorem exists_after (ha : g.Augmented) {q : State} (hq : q ∈ g.states g.itemTable) {k : Item} {x : Nat}
    (hk : g.Holds q k) (hx : g.next? k = some x) (hs : x < g.symbols) :
    ∃ n, g.automaton.number? (g.after q x) = some n ∧
      (g.states g.itemTable)[n]? = some (g.after q x) := by
  have he := after_nonempty ha.checked.nonterminals_le hk hx
  obtain ⟨n, hn⟩ := exists_number? (states_after ha.checked hq hs he) he
  exact ⟨n, hn, (states_of_number? hn).2⟩

end Grammar

/-! ## Look-ups -/

variable {n x : Nat} {q : State}

/-- Where the dot stands before a terminal, it is shifted. -/
theorem lookup_shift (ha : g.Augmented) (hc : (Tables.build g).conflicts = ⟨0, 0, 0⟩)
    (hq : (g.states g.itemTable)[n]? = some q) {k : Item} (hk : g.Holds q k) (hx : g.next? k = some x)
    (hs : x < g.symbols) (ht : g.IsTerminal x) (he : x ≠ g.endMarker) :
    ∃ m, (Tables.build g).lookup n x = .shift m ∧
      (g.states g.itemTable)[m]? = some (g.after q x) := by
  have hm := List.mem_of_getElem? hq
  obtain ⟨m, hnum, hafter⟩ := Grammar.exists_after ha hm hk hx hs
  obtain ⟨hshift, hgoto⟩ := Grammar.cell_shift ht hnum
  have hacc : (g.cell q x).accept = false :=
    Bool.eq_false_iff.mpr fun h => he (Grammar.accept_cell.mp h).1
  have hred := Grammar.reduce_eq_nil (conflicts_cell hc hm hs) hacc hgoto hshift
  obtain ⟨_, hl, -⟩ := lookup_eq hq hs
  refine ⟨m, ?_, hafter⟩
  rw [hl, Grammar.resolve, hacc, hgoto, hshift, hred]
  rfl

/-- Where the dot stands before a nonterminal, the table leads over it. -/
theorem lookup_goto (ha : g.Augmented) (hq : (g.states g.itemTable)[n]? = some q) {k : Item}
    (hk : g.Holds q k) (hx : g.next? k = some x) (hs : x < g.nonterminals) :
    ∃ m, (Tables.build g).lookup n x = .goto m ∧
      (g.states g.itemTable)[m]? = some (g.after q x) := by
  have hlt : x < g.symbols := Nat.lt_trans hs ha.terminal
  obtain ⟨m, hnum, hafter⟩ := Grammar.exists_after ha (List.mem_of_getElem? hq) hk hx hlt
  have hgoto := Grammar.cell_goto (q := q) hs hnum
  have hacc : (g.cell q x).accept = false := by
    refine Bool.eq_false_iff.mpr fun h => ?_
    have he := (Grammar.accept_cell.mp h).1
    have := ha.terminal
    rw [Grammar.endMarker] at he
    omega
  obtain ⟨_, hl, -⟩ := lookup_eq hq hlt
  refine ⟨m, ?_, hafter⟩
  rw [hl, Grammar.resolve, hacc, hgoto]
  rfl

/-- A finished goal is accepted at the end of the input. -/
theorem lookup_accept (ha : g.Augmented) (hq : (g.states g.itemTable)[n]? = some q) {goal : Nat}
    (hg : goal ∈ g.goals) {p : Production} (hp : g.productions[goal]? = some p)
    (hi : g.Holds q ⟨goal, p.rhs.length⟩) : (Tables.build g).lookup n g.endMarker = .accept := by
  have hlt : g.endMarker < g.symbols := by
    have := ha.terminal
    rw [Grammar.endMarker]
    omega
  have hacc : (g.cell q g.endMarker).accept = true :=
    Grammar.accept_cell.mpr ⟨rfl, goal, hg, p, hp, hi⟩
  obtain ⟨_, hl, -⟩ := lookup_eq hq hlt
  rw [hl, Grammar.resolve, if_pos hacc]
  rfl

/-- A finished phrase is reduced before a terminal that follows it, unless a goal is finished there too. -/
theorem lookup_reduce (hc : (Tables.build g).conflicts = ⟨0, 0, 0⟩)
    (hq : (g.states g.itemTable)[n]? = some q) {i : Nat} {p : Production}
    (hp : g.productions[i]? = some p) (hi : g.Holds q ⟨i, p.rhs.length⟩) (hg : i ∉ g.goals)
    (hs : x < g.symbols) (ht : g.IsTerminal x) (hf : g.Follows p.lhs x) :
    (Tables.build g).lookup n x = .reduce i ∨
      x = g.endMarker ∧ ∃ goal ∈ g.goals, ∃ r, g.productions[goal]? = some r ∧
        g.Holds q ⟨goal, r.rhs.length⟩ := by
  cases hacc : (g.cell q x).accept with
  | true => exact .inr (Grammar.accept_cell.mp hacc)
  | false =>
    refine .inl ?_
    have hfree := conflicts_cell hc (List.mem_of_getElem? hq) hs
    have hmem : i ∈ (g.cell q x).reduce :=
      Grammar.mem_reduce_cell.mpr ⟨⟨p, hp, hi⟩, hg, (Grammar.isFollowedBy_iff hp).mpr hf⟩
    have hred := Grammar.reduce_eq_singleton hfree hacc hmem
    have hgoto : (g.cell q x).goto = none := by
      by_contra hne
      obtain ⟨m, hm⟩ := Option.ne_none_iff_exists'.mp hne
      exact absurd (Grammar.goto_cell hm).1 (Nat.not_lt_of_le ht)
    have hshift : (g.cell q x).shift = none := by
      by_contra hne
      obtain ⟨m, hm⟩ := Option.ne_none_iff_exists'.mp hne
      rw [Grammar.reduce_eq_nil hfree hacc hgoto hm] at hred
      cases hred
    obtain ⟨_, hl, -⟩ := lookup_eq hq hs
    rw [hl, Grammar.resolve, hacc, hgoto, hshift, hred]
    rfl

end Formula.LR
