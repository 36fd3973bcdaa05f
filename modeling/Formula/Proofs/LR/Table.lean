import Formula.LR.Table
import Formula.Proofs.LR.Derivation
import Formula.Proofs.LR.States

/-!
# What the tables say

`lookup_eq_action` takes a look-up apart: in a row and a column of the table stands what became of the cell of that
state and symbol, and an ambiguity has as many others in front of it as its number says. From there on nothing refers
to the layout of the table.

`Sanctioned` says what an action means for the items of its state, whatever the conflicts were and however
precedence settled them: a shift leads to the state after the symbol, a reduction is by a production that was
read to its end, acceptance is of a goal that was. Every action in the table is sanctioned, and so are both
sides of an ambiguity (`lookup_sanctioned`).
-/

namespace Formula.LR

/-! ## The layout of the table -/

theorem openChoices_append (rs ts : List Resolution) :
    openChoices (rs ++ ts) = openChoices rs ++ openChoices ts :=
  List.filterMap_append

theorem rowActions_getElem? (n : Nat) (rs : List Resolution) (i : Nat) :
    (rowActions n rs)[i]? = rs[i]?.map fun r => r.action (n + (openChoices (rs.take i)).length) := by
  induction rs generalizing n i with
  | nil => rfl
  | cons r rs ih =>
    rw [rowActions]
    cases i with
    | zero => rfl
    | succ i =>
      rw [List.getElem?_cons_succ, List.getElem?_cons_succ, ih, List.take_succ_cons,
        show r :: rs.take i = [r] ++ rs.take i from rfl, openChoices_append, List.length_append,
        Nat.add_assoc]

theorem tableActions_getElem? (n : Nat) (rows : List (List Resolution)) (i : Nat) :
    (tableActions n rows)[i]? =
      rows[i]?.map (rowActions (n + (openChoices (rows.take i).flatten).length)) := by
  induction rows generalizing n i with
  | nil => rfl
  | cons row rows ih =>
    rw [tableActions]
    cases i with
    | zero => rfl
    | succ i =>
      rw [List.getElem?_cons_succ, List.getElem?_cons_succ, ih, List.take_succ_cons, List.flatten_cons,
        openChoices_append, List.length_append, Nat.add_assoc]

/-- A choice is found behind those of the resolutions before it. -/
theorem openChoices_getElem? {before after : List Resolution} {s p : Nat} :
    (openChoices (before ++ .ambiguous s p :: after))[(openChoices before).length]? = some (s, p) := by
  rw [openChoices_append, List.getElem?_append_right (Nat.le_refl _), Nat.sub_self]
  rfl

theorem eq_append_of_getElem? {α : Type} {l : List α} {i : Nat} {a : α} (h : l[i]? = some a) :
    l = l.take i ++ a :: l.drop (i + 1) := by
  obtain ⟨hi, rfl⟩ := List.getElem?_eq_some_iff.mp h
  rw [← List.drop_eq_getElem_cons, List.take_append_drop]

variable {g : Grammar}

namespace Grammar

/-- The candidates in a state before a symbol. -/
def cell (g : Grammar) (q : State) (x : Nat) : Cell :=
  g.automaton.cell (g.itemTable.completed q) (g.after q x) x

/-- What became of the cells of a state. -/
def resolutions (g : Grammar) (q : State) : List Resolution :=
  (List.range g.symbols).map fun x => g.resolve x (g.cell q x)

theorem length_resolutions (q : State) : (g.resolutions q).length = g.symbols := by
  rw [resolutions, List.length_map, List.length_range]

theorem row_eq (q : State) :
    g.automaton.row q = (List.range g.symbols).map (g.cell q) := by
  apply List.ext_getElem?
  intro x
  rw [Automaton.row]
  simp only [List.getElem?_map, List.getElem?_zipIdx, automaton, ItemTable.gotos, itemTable,
    Option.map_map, Function.comp_def, Nat.zero_add]
  cases h : (List.range g.symbols)[x]? with
  | none => rfl
  | some y =>
    obtain ⟨hx, rfl⟩ := List.getElem?_eq_some_iff.mp h
    rw [List.getElem_range]
    rfl

theorem zipIdx_map_range {α : Type} (f : Nat → α) (n : Nat) :
    ((List.range n).map f).zipIdx = (List.range n).map fun x => (f x, x) := by
  apply List.ext_getElem?
  intro x
  simp only [List.getElem?_map, List.getElem?_zipIdx, Option.map_map, Function.comp_def, Nat.zero_add]
  cases h : (List.range n)[x]? with
  | none => rfl
  | some y =>
    obtain ⟨hx, rfl⟩ := List.getElem?_eq_some_iff.mp h
    rw [List.getElem_range]
    rfl

end Grammar

theorem rows_build : (Tables.build g).rows =
    ((tableActions 0 ((g.states g.itemTable).map g.resolutions)).map List.toArray).toArray := by
  simp only [Tables.build, Grammar.row_eq, Grammar.zipIdx_map_range, List.map_map, Function.comp_def]
  rfl

theorem ambiguities_build : (Tables.build g).ambiguities =
    (openChoices ((g.states g.itemTable).map g.resolutions).flatten).toArray := by
  simp only [Tables.build, Grammar.row_eq, Grammar.zipIdx_map_range, List.map_map, Function.comp_def]
  rfl

/-- The place for a symbol of the grammar is in the row of the state. -/
theorem Tables.place_of_lt (t : Tables) (n : Nat) {x : Nat} (hx : x < t.grammar.symbols) :
    t.place n x = n * t.grammar.symbols + x := if_pos hx

/-- An action is found in its row and column. -/
theorem Tables.lookup_eq_getElem? (t : Tables) {n x : Nat} (hx : x < t.grammar.symbols) :
    t.lookup n x = (t.rows[n]?.bind (·[x]?)).getD .error := by
  have hd : (n * t.grammar.symbols + x) / t.grammar.symbols = n := by
    rw [Nat.mul_comm, Nat.mul_add_div (by omega), Nat.div_eq_of_lt hx, Nat.add_zero]
  have hm : (n * t.grammar.symbols + x) % t.grammar.symbols = x := by
    rw [Nat.mul_comm, Nat.mul_add_mod, Nat.mod_eq_of_lt hx]
  rw [lookup, t.place_of_lt n hx, hd, hm]
  rfl

/-- The tables of a grammar say the same for a symbol beyond its last one as for some symbol of some row. -/
theorem lookup_wrap (t : Tables) (ht : 0 < t.grammar.symbols) (n x : Nat) :
    t.lookup n x = t.lookup (t.place n x / t.grammar.symbols) (t.place n x % t.grammar.symbols) := by
  rw [Tables.lookup, Tables.lookup, t.place_of_lt _ (Nat.mod_lt _ ht), Nat.div_add_mod']

/-- Beyond the last state there are only errors. -/
theorem lookup_eq_error {n x : Nat} (hq : (g.states g.itemTable)[n]? = none) (hx : x < g.symbols) :
    (Tables.build g).lookup n x = .error := by
  rw [(Tables.build g).lookup_eq_getElem? hx, rows_build, List.getElem?_toArray, List.getElem?_map,
    tableActions_getElem?, List.getElem?_map, hq]
  rfl

/-- What became of the cells in front of a cell: those of the states before, and those of the symbols before. -/
def Grammar.resolutionsBefore (g : Grammar) (n : Nat) (q : State) (x : Nat) : List Resolution :=
  (((g.states g.itemTable).map g.resolutions).take n).flatten ++ (g.resolutions q).take x

section

variable {n x : Nat} {q : State} (hq : (g.states g.itemTable)[n]? = some q) (hx : x < g.symbols)

include hq hx

/-- In a row and a column stands what became of the cell. An ambiguity has as many others in front of it as its
number says. -/
theorem lookup_eq_action : (Tables.build g).lookup n x =
    (g.resolve x (g.cell q x)).action (openChoices (g.resolutionsBefore n q x)).length := by
  have hr : ((g.states g.itemTable).map g.resolutions)[n]? = some (g.resolutions q) := by
    rw [List.getElem?_map, hq, Option.map_some]
  have hc : (g.resolutions q)[x]? = some (g.resolve x (g.cell q x)) := by
    rw [Grammar.resolutions, List.getElem?_map, List.getElem?_range hx, Option.map_some]
  rw [(Tables.build g).lookup_eq_getElem? hx, rows_build, List.getElem?_toArray, List.getElem?_map,
    tableActions_getElem?, hr, Option.map_some, Option.map_some, Option.bind_some, List.getElem?_toArray,
    rowActions_getElem?, hc, Option.map_some, Option.getD_some, Grammar.resolutionsBefore, openChoices_append,
    List.length_append, Nat.zero_add]

/-- The number of an ambiguity leads back to its two sides. -/
theorem choice_eq {s p : Nat} (h : g.resolve x (g.cell q x) = .ambiguous s p) :
    (Tables.build g).choice (openChoices (g.resolutionsBefore n q x)).length = (.shift s, .reduce p) := by
  have hr : ((g.states g.itemTable).map g.resolutions)[n]? = some (g.resolutions q) := by
    rw [List.getElem?_map, hq, Option.map_some]
  have hc : (g.resolutions q)[x]? = some (.ambiguous s p) := by
    rw [Grammar.resolutions, List.getElem?_map, List.getElem?_range hx, Option.map_some, h]
  have e : ((g.states g.itemTable).map g.resolutions).flatten =
      g.resolutionsBefore n q x ++ .ambiguous s p :: ((g.resolutions q).drop (x + 1) ++
        (((g.states g.itemTable).map g.resolutions).drop (n + 1)).flatten) := by
    conv_lhs => rw [eq_append_of_getElem? hr, eq_append_of_getElem? hc]
    simp [Grammar.resolutionsBefore]
  rw [Tables.choice, ambiguities_build, List.getElem?_toArray, e, openChoices_getElem?]

theorem lookup_eq : ∃ number, (Tables.build g).lookup n x = (g.resolve x (g.cell q x)).action number ∧
    ∀ s p, g.resolve x (g.cell q x) = .ambiguous s p →
      (Tables.build g).choice number = (.shift s, .reduce p) :=
  ⟨_, lookup_eq_action hq hx, fun _ _ => choice_eq hq hx⟩

end

namespace Grammar

/-! ## Candidates -/

/-- The productions that a state has read to their ends. -/
theorem mem_completed {q : State} {i : Nat} :
    i ∈ g.itemTable.completed q ↔
      ∃ p, g.productions[i]? = some p ∧ g.Holds q ⟨i, p.rhs.length⟩ := by
  simp only [ItemTable.completed, itemTable, completions, List.mem_map, List.mem_filter,
    List.mem_filterMap, Prod.exists, List.mem_zipIdx_iff_getElem?]
  constructor
  · rintro ⟨j, m, ⟨⟨⟨i', d⟩, n, hn, h⟩, hm⟩, rfl⟩
    split at h
    · rename_i hc
      simp only [Option.some.injEq, Prod.mk.injEq] at h
      obtain ⟨rfl, rfl⟩ := h
      obtain ⟨p, hp, rfl⟩ := dot_of_isComplete hn hc
      exact ⟨p, hp, n, hn, hm⟩
    · cases h
  · rintro ⟨p, hp, n, hn, hm⟩
    refine ⟨i, n, ⟨⟨⟨i, p.rhs.length⟩, n, hn, ?_⟩, hm⟩, rfl⟩
    rw [if_pos]
    simp [isComplete, next?, hp]

/-- The productions that a state has read to their ends come in the order of their numbers. -/
theorem pairwise_completed (q : State) : (g.itemTable.completed q).Pairwise (· < ·) := by
  rw [ItemTable.completed, List.pairwise_map]
  refine List.Pairwise.filter _ ?_
  have h : g.items.zipIdx.Pairwise fun a b =>
      a.1.production < b.1.production ∨ a.1.production = b.1.production ∧ a.1.dot < b.1.dot := by
    have h := g.pairwise_items
    rwa [← List.zipIdx_map_fst 0 g.items, List.pairwise_map] at h
  simp only [itemTable, completions]
  rw [List.pairwise_filterMap]
  refine h.imp_of_mem ?_
  rintro ⟨⟨i, d⟩, n⟩ ⟨⟨j, e⟩, m⟩ hn hm hlt a ha b hb
  rw [List.mem_zipIdx_iff_getElem?] at hn hm
  split at ha
  · split at hb
    · cases ha
      cases hb
      refine hlt.resolve_right ?_
      rintro ⟨he : i = j, hde : d < e⟩
      subst he
      obtain ⟨p, hp, rfl⟩ := dot_of_isComplete hn ‹_›
      obtain ⟨p', hp', rfl⟩ := dot_of_isComplete hm ‹_›
      obtain rfl := Option.some.inj (hp.symm.trans hp')
      exact Nat.lt_irrefl _ hde
    · cases hb
  · cases ha

/-- The number of a state leads to the state. -/
theorem states_of_number? {s : State} {n : Nat} (h : g.automaton.number? s = some n) :
    s.isEmpty = false ∧ (g.states g.itemTable)[n]? = some s := by
  rw [Automaton.number?] at h
  split at h
  · cases h
  · obtain ⟨hn, hs, -⟩ := List.idxOf?_eq_some_iff.mp h
    exact ⟨Bool.eq_false_iff.mpr ‹_›, List.getElem?_eq_some_iff.mpr ⟨hn, hs⟩⟩

theorem exists_number? {s : State} (hs : s ∈ g.states g.itemTable) (he : s.isEmpty = false) :
    ∃ n, g.automaton.number? s = some n := by
  rw [Automaton.number?, he, if_neg Bool.false_ne_true, ← Option.isSome_iff_exists, List.isSome_idxOf?]
  exact hs

/-- Only a terminal is shifted. -/
theorem shift_cell_eq (q : State) (x : Nat) :
    (g.cell q x).shift = if x < g.nonterminals then none else g.automaton.number? (g.after q x) := by
  simp [cell, Automaton.cell, show g.automaton.grammar = g from rfl]

/-- The table leads over nonterminals. -/
theorem goto_cell_eq (q : State) (x : Nat) :
    (g.cell q x).goto = if x < g.nonterminals then g.automaton.number? (g.after q x) else none := by
  simp [cell, Automaton.cell, show g.automaton.grammar = g from rfl]

theorem shift_cell {q : State} {x n : Nat} (h : (g.cell q x).shift = some n) :
    g.IsTerminal x ∧ (g.after q x).isEmpty = false ∧
      (g.states g.itemTable)[n]? = some (g.after q x) := by
  rw [shift_cell_eq] at h
  split at h
  · cases h
  · exact ⟨Nat.le_of_not_lt ‹_›, states_of_number? h⟩

theorem goto_cell {q : State} {x n : Nat} (h : (g.cell q x).goto = some n) :
    x < g.nonterminals ∧ (g.after q x).isEmpty = false ∧
      (g.states g.itemTable)[n]? = some (g.after q x) := by
  rw [goto_cell_eq] at h
  split at h
  · exact ⟨‹_›, states_of_number? h⟩
  · cases h

theorem mem_reduce_cell {q : State} {x i : Nat} :
    i ∈ (g.cell q x).reduce ↔ (∃ p, g.productions[i]? = some p ∧ g.Holds q ⟨i, p.rhs.length⟩) ∧
      i ∉ g.goals ∧ g.automaton.isFollowedBy i x = true := by
  simp only [cell, Automaton.cell, List.mem_filter, mem_completed, Bool.and_eq_true,
    Bool.not_eq_true', Automaton.isGoal, automaton, List.contains_eq_mem, decide_eq_false_iff_not]

theorem accept_cell {q : State} {x : Nat} :
    (g.cell q x).accept = true ↔ x = g.endMarker ∧
      ∃ i ∈ g.goals, ∃ p, g.productions[i]? = some p ∧ g.Holds q ⟨i, p.rhs.length⟩ := by
  simp only [cell, Automaton.cell, Bool.and_eq_true, beq_iff_eq, List.any_eq_true, mem_completed,
    Automaton.isGoal, automaton, List.contains_eq_mem, decide_eq_true_eq]
  refine and_congr_right fun _ => exists_congr fun i => ?_
  exact and_comm

/-! ## What became of them -/

/-- What an action before a symbol means for the items of its state. -/
inductive Sanctioned (g : Grammar) (q : State) (x : Nat) : Action → Prop where
  | error : Sanctioned g q x .error
  | accept {i : Nat} {p : Production} (hx : x = g.endMarker) (hg : i ∈ g.goals)
      (hp : g.productions[i]? = some p) (h : g.Holds q ⟨i, p.rhs.length⟩) : Sanctioned g q x .accept
  | shift {n : Nat} (hx : g.IsTerminal x) (he : (g.after q x).isEmpty = false)
      (hn : (g.states g.itemTable)[n]? = some (g.after q x)) : Sanctioned g q x (.shift n)
  | reduce {i : Nat} {p : Production} (hp : g.productions[i]? = some p)
      (h : g.Holds q ⟨i, p.rhs.length⟩) : Sanctioned g q x (.reduce i)
  | goto {n : Nat} (hx : x < g.nonterminals) (he : (g.after q x).isEmpty = false)
      (hn : (g.states g.itemTable)[n]? = some (g.after q x)) : Sanctioned g q x (.goto n)

theorem sanctioned_shift {q : State} {x n : Nat} (h : (g.cell q x).shift = some n) :
    g.Sanctioned q x (.shift n) :=
  let ⟨hx, he, hn⟩ := shift_cell h
  .shift hx he hn

theorem sanctioned_reduce {q : State} {x i : Nat} (h : i ∈ (g.cell q x).reduce) :
    g.Sanctioned q x (.reduce i) :=
  let ⟨⟨_, hp, hh⟩, _⟩ := mem_reduce_cell.mp h
  .reduce hp hh

/-- A shift against a reduction ends in one of the two, in an error, or stays open. -/
theorem settle_cases (x s i : Nat) :
    g.settle x s i = .shift s ∨ g.settle x s i = .reduce i ∨ g.settle x s i = .error ∨
      g.settle x s i = .ambiguous s i := by
  unfold settle
  repeat' split
  all_goals simp

/-- However a cell was settled, its action is sanctioned, or it is open with both sides sanctioned. -/
theorem resolve_sanctioned (q : State) (x : Nat) :
    (∃ s i, g.resolve x (g.cell q x) = .ambiguous s i ∧ g.Sanctioned q x (.shift s) ∧
      g.Sanctioned q x (.reduce i)) ∨
    ∀ number, g.Sanctioned q x ((g.resolve x (g.cell q x)).action number) := by
  unfold resolve
  split
  · obtain ⟨hx, i, hg, p, hp, h⟩ := accept_cell.mp ‹_›
    exact .inr fun _ => .accept hx hg hp h
  · split
    · obtain ⟨hx, he, hn⟩ := goto_cell ‹_›
      exact .inr fun _ => .goto hx he hn
    · exact .inr fun _ => .error
    · exact .inr fun _ => sanctioned_shift ‹_›
    · rename_i i _ _ _ hr
      exact .inr fun _ => sanctioned_reduce (by rw [hr]; exact List.mem_cons_self)
    · rename_i s i _ _ hs hr
      have hs := sanctioned_shift hs
      have hr : g.Sanctioned q x (.reduce i) := sanctioned_reduce (by rw [hr]; exact List.mem_cons_self)
      rcases settle_cases (g := g) x s i with h | h | h | h
      · exact .inr fun _ => by rw [h]; exact hs
      · exact .inr fun _ => by rw [h]; exact hr
      · exact .inr fun _ => by rw [h]; exact .error
      · exact .inl ⟨s, i, h, hs, hr⟩

end Grammar

/-- Every action in the table is sanctioned, and so are both sides of an ambiguity. -/
theorem lookup_sanctioned {n x : Nat} {q : State} (hq : (g.states g.itemTable)[n]? = some q)
    (hx : x < g.symbols) :
    g.Sanctioned q x ((Tables.build g).lookup n x) ∨
      ∃ number, (Tables.build g).lookup n x = .ambiguous number ∧
        g.Sanctioned q x ((Tables.build g).choice number).1 ∧
        g.Sanctioned q x ((Tables.build g).choice number).2 := by
  obtain ⟨number, hl, hc⟩ := lookup_eq hq hx
  rcases g.resolve_sanctioned q x with ⟨s, i, h, hs, hi⟩ | h
  · refine .inr ⟨number, by rw [hl, h]; rfl, ?_⟩
    rw [hc s i h]
    exact ⟨hs, hi⟩
  · exact .inl (hl ▸ h number)

end Formula.LR
