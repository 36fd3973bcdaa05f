import Formula.Proofs.LR.Filling

/-!
# The construction ends, and no lookup misses

For every grammar that passes the checks, `Grammar.construct` comes to its end without a lookup that misses, and gives
the tables that `Tables.build` gives, with the rows one behind the other (`construct_ends`). Every action refers to a
state, a production or an ambiguity that is there.

The loops are in `Closing` and `Saturation`, the candidates in `Filling`. What is left is to settle the candidates cell
by cell: `resolveCell_acts` for one cell, `foldlM_add` for a row and `foldlM_addRow` for all rows.
-/

namespace Formula.LR

/-! ## Settling a cell -/

/-- A further reduction is only counted. -/
theorem scanCell_reduces (rs : List Nat) (acts : List Act) (shift : Option Nat) (kept : Nat) (c : Conflicts) :
    scanCell (rs.map .reduce ++ acts) shift (some kept) c =
      scanCell acts shift (some kept) { c with reduceReduce := c.reduceReduce + rs.length } := by
  induction rs generalizing c with
  | nil => rfl
  | cons r rs ih =>
    rw [List.map_cons, List.cons_append, scanCell, ih, List.length_cons, Nat.add_right_comm, Nat.add_assoc]

/-- Acceptance ends the search, and so does a way on, but only behind the reductions. -/
theorem scanCell_acts (cell : Cell) (c : Conflicts) : scanCell cell.acts none none c =
    if cell.accept then (.inl .accept, c)
    else (match cell.goto with
        | some s => .inl (.goto s)
        | none => .inr (cell.shift, cell.reduce.head?),
      { c with reduceReduce := c.reduceReduce + (cell.reduce.length - 1) }) := by
  obtain ⟨accept, shift, reduce, goto⟩ := cell
  cases accept with
  | true => rfl
  | false =>
    cases reduce with
    | nil => cases shift <;> cases goto <;> rfl
    | cons r rs => cases shift <;> cases goto <;> exact scanCell_reduces rs _ _ r c

namespace Grammar

variable {g : Grammar}

/-- The candidates of a cell are settled as the cell is. -/
theorem resolveCell_acts {cell : Cell} (h : ∀ i ∈ cell.reduce, i < g.productions.length) (x : Nat) (c : Conflicts) :
    g.resolveCell x cell.acts c = some (g.resolve x cell, c + g.conflicts x cell) := by
  obtain ⟨accept, shift, reduce, goto⟩ := cell
  rw [resolveCell, scanCell_acts, resolve, conflicts]
  cases accept with
  | true => rfl
  | false =>
    cases goto with
    | some s => rfl
    | none =>
      cases shift with
      | none => cases reduce <;> rfl
      | some s =>
        cases reduce with
        | nil => rfl
        | cons i is =>
          have hi := List.getElem?_eq_getElem (h i List.mem_cons_self)
          simp only [Bool.false_eq_true, if_false, List.head?_cons, precAt, hi, Option.bind_eq_bind, Option.bind_some]
          cases g.settle x s i <;> rfl

theorem lt_of_mem_reduce_cell {q : State} {x i : Nat} (h : i ∈ (g.cell q x).reduce) : i < g.productions.length := by
  obtain ⟨⟨p, hp, -⟩, -⟩ := mem_reduce_cell.mp h
  exact (List.getElem?_eq_some_iff.mp hp).1

/-! ## Settling rows -/

theorem add_acts (t : Settled) (q : State) (x : Nat) :
    t.add g x (g.cell q x).acts = some {
      actions := t.actions ++ [(g.resolve x (g.cell q x)).action t.ambiguities.length]
      ambiguities := t.ambiguities ++ openChoices [g.resolve x (g.cell q x)]
      conflicts := t.conflicts + g.conflicts x (g.cell q x) } := by
  rw [Settled.add, resolveCell_acts fun i => lt_of_mem_reduce_cell]
  rfl

/-- The conflicts of some cells of a state. -/
def conflictsOf (g : Grammar) (q : State) (symbols : List Nat) : List Conflicts :=
  symbols.map fun x => g.conflicts x (g.cell q x)

theorem foldlM_add (q : State) (symbols : List Nat) (t : Settled) :
    symbols.foldlM (fun t x => Settled.add g t x (g.cell q x).acts) t = some {
      actions := t.actions ++ rowActions t.ambiguities.length (symbols.map fun x => g.resolve x (g.cell q x))
      ambiguities := t.ambiguities ++ openChoices (symbols.map fun x => g.resolve x (g.cell q x))
      conflicts := (g.conflictsOf q symbols).foldl (· + ·) t.conflicts } := by
  induction symbols generalizing t with
  | nil => simp [rowActions, openChoices, conflictsOf]
  | cons x symbols ih =>
    rw [List.foldlM_cons, add_acts, Option.bind_eq_bind, Option.bind_some, ih, List.map_cons, rowActions,
      ← List.singleton_append (l := symbols.map _), openChoices_append, List.length_append, List.append_assoc,
      List.append_assoc, List.singleton_append]
    rfl

theorem addRow_candidates (q : State) (t : Settled) :
    Settled.addRow g t (g.candidates q) = some {
      actions := t.actions ++ rowActions t.ambiguities.length (g.resolutions q)
      ambiguities := t.ambiguities ++ openChoices (g.resolutions q)
      conflicts := (g.conflictsOf q (List.range g.symbols)).foldl (· + ·) t.conflicts } := by
  rw [Settled.addRow, candidates, zipIdx_map_range, List.foldlM_map]
  exact foldlM_add q (List.range g.symbols) t

theorem foldlM_addRow (states : List State) (t : Settled) :
    (states.map g.candidates).foldlM (Settled.addRow g) t = some {
      actions := t.actions ++ (tableActions t.ambiguities.length (states.map g.resolutions)).flatten
      ambiguities := t.ambiguities ++ openChoices (states.map g.resolutions).flatten
      conflicts := (states.flatMap fun q => g.conflictsOf q (List.range g.symbols)).foldl (· + ·) t.conflicts } := by
  induction states generalizing t with
  | nil => simp [tableActions, openChoices]
  | cons q states ih =>
    rw [List.map_cons, List.foldlM_cons, addRow_candidates, Option.bind_eq_bind, Option.bind_some, ih, List.map_cons,
      tableActions, List.flatten_cons, List.flatten_cons, openChoices_append, List.length_append, List.append_assoc,
      List.append_assoc, List.flatMap_cons, List.foldl_append]

/-! ## The layout -/

theorem length_rowActions (n : Nat) (rs : List Resolution) : (rowActions n rs).length = rs.length := by
  induction rs generalizing n with
  | nil => rfl
  | cons r rs ih => rw [rowActions, List.length_cons, ih, List.length_cons]

/-- Rows of one length fill a rectangle. -/
theorem length_flatten_tableActions {rows : List (List Resolution)} {columns : Nat}
    (h : ∀ row ∈ rows, row.length = columns) (n : Nat) :
    (tableActions n rows).flatten.length = rows.length * columns := by
  induction rows generalizing n with
  | nil => rw [tableActions, List.flatten_nil, List.length_nil, List.length_nil, Nat.zero_mul]
  | cons row rows ih =>
    rw [tableActions, List.flatten_cons, List.length_append, length_rowActions, h row List.mem_cons_self,
      ih fun r hr => h r (List.mem_cons_of_mem row hr), List.length_cons, Nat.succ_mul, Nat.add_comm]

theorem rows_toList : (Tables.build g).rows.toList.map Array.toList =
    tableActions 0 ((g.states g.itemTable).map g.resolutions) := by
  rw [rows_build, List.map_map, Function.comp_def, List.map_id']

theorem conflicts_flatMap : (Tables.build g).conflicts =
    ((g.states g.itemTable).flatMap fun q => g.conflictsOf q (List.range g.symbols)).foldl (· + ·) {} := by
  rw [conflicts_build, List.map_flatten, List.map_map, List.flatMap]
  simp only [Function.comp_def, List.map_map]
  rfl

/-- The cells of all states, settled one after the other, give the actions of the tables. -/
theorem foldlM_addRow_build : ((g.states g.itemTable).map g.candidates).foldlM (Settled.addRow g) {} = some
    { actions := (Tables.build g).flat.actions
      ambiguities := (Tables.build g).flat.ambiguities
      conflicts := (Tables.build g).conflicts } := by
  rw [foldlM_addRow, Tables.flat, rows_toList, ambiguities_build, conflicts_flatMap]
  rfl

end Grammar

/-! ## What actions refer to -/

/-- The state, the production or the ambiguity that an action refers to is there. -/
def Tables.Contains (t : Tables) : Action → Prop
  | .error => True
  | .accept => True
  | .shift s => s < t.states.length
  | .goto s => s < t.states.length
  | .reduce p => p < t.grammar.productions.length
  | .ambiguous n => n < t.ambiguities.size

variable {g : Grammar}

/-- What is sanctioned refers to states and productions of the grammar. -/
theorem Grammar.Sanctioned.contains {q : State} {x : Nat} {action : Action} (h : g.Sanctioned q x action) :
    (Tables.build g).Contains action := by
  cases h with
  | error => trivial
  | accept => trivial
  | shift _ _ hn => exact (List.getElem?_eq_some_iff.mp hn).1
  | reduce hp _ => exact (List.getElem?_eq_some_iff.mp hp).1
  | goto _ _ hn => exact (List.getElem?_eq_some_iff.mp hn).1

/-- An action of the table stands in the row of a state and the column of a symbol. -/
theorem exists_of_mem_actions {action : Action} (h : action ∈ (Tables.build g).flat.actions) :
    ∃ n q x, (g.states g.itemTable)[n]? = some q ∧ x < g.symbols ∧ (Tables.build g).lookup n x = action := by
  obtain ⟨row, hrow, hx⟩ := List.mem_flatten.mp h
  obtain ⟨n, hn⟩ := List.mem_iff_getElem?.mp hrow
  obtain ⟨x, hx⟩ := List.mem_iff_getElem?.mp hx
  rw [Grammar.rows_toList, tableActions_getElem?, List.getElem?_map, Option.map_map, Option.map_eq_some_iff] at hn
  obtain ⟨q, hq, rfl⟩ := hn
  have hxs : x < g.symbols := by
    have := (List.getElem?_eq_some_iff.mp hx).1
    rwa [Function.comp_apply, Grammar.length_rowActions, Grammar.length_resolutions] at this
  refine ⟨n, q, x, hq, hxs, ?_⟩
  rw [(Tables.build g).lookup_eq_getElem? hxs, rows_build, List.getElem?_toArray, List.getElem?_map,
    tableActions_getElem?, List.getElem?_map, hq, Option.map_some, Option.map_some, Option.map_some, Option.bind_some,
    List.getElem?_toArray]
  exact Option.getD_eq_iff.mpr (.inl hx)

theorem contains_of_mem_actions {action : Action} (h : action ∈ (Tables.build g).flat.actions) :
    (Tables.build g).Contains action := by
  obtain ⟨n, q, x, hq, hx, rfl⟩ := exists_of_mem_actions h
  rw [lookup_eq_action hq hx]
  rcases g.resolve_sanctioned q x with ⟨s, i, hr, -, -⟩ | hr
  · -- the choice is kept under the number of the ambiguity
    have hchoice := choice_eq hq hx hr
    rw [Tables.choice] at hchoice
    rw [hr]
    split at hchoice
    · rename_i hab
      exact (Array.getElem?_eq_some_iff.mp hab).1
    · cases hchoice
  · exact (hr _).contains

/-- Both sides of an ambiguity are there. -/
theorem contains_of_mem_ambiguities {s p : Nat} (h : (s, p) ∈ (Tables.build g).flat.ambiguities) :
    (Tables.build g).Contains (.shift s) ∧ (Tables.build g).Contains (.reduce p) := by
  rw [Tables.flat, ambiguities_build, openChoices, List.mem_filterMap] at h
  obtain ⟨r, hr, hchoice⟩ := h
  obtain ⟨rs, hrs, hr⟩ := List.mem_flatten.mp hr
  obtain ⟨q, -, rfl⟩ := List.mem_map.mp hrs
  obtain ⟨x, -, rfl⟩ := List.mem_map.mp hr
  rcases g.resolve_sanctioned q x with ⟨s', p', hr, hs, hp⟩ | hall
  · rw [hr] at hchoice
    obtain ⟨rfl, rfl⟩ := Prod.mk.inj (Option.some.inj hchoice)
    exact ⟨hs.contains, hp.contains⟩
  · cases hr : g.resolve x (g.cell q x) with
    | ambiguous s' p' =>
      have := hall 0
      rw [hr] at this
      cases this
    | _ => rw [hr] at hchoice; cases hchoice

namespace Grammar

/-! ## The construction -/

/-- A grammar that passes the checks has a goal, and so a nonterminal. -/
theorem nonterminals_pos_of_build (hb : g.build = .ok g) : 0 < g.nonterminals := by
  have hc := checked_of_build hb
  have hgoals : g.goals ≠ [] := by
    obtain ⟨⟨⟩, hcheck, -⟩ := bind_eq_ok hb
    unfold check at hcheck
    dsimp only at hcheck
    split at hcheck
    · cases hcheck
    · obtain ⟨⟨⟩, -, hcheck⟩ := bind_eq_ok hcheck
      split at hcheck
      · cases hcheck
      · assumption
  obtain ⟨goal, hg⟩ := List.exists_mem_of_ne_nil _ hgoals
  obtain ⟨p, -, hp, -⟩ := hc.goal goal hg
  exact Nat.lt_of_le_of_lt (Nat.zero_le _) (hc.lhs_lt p (List.mem_of_getElem? hp))

/-- The elements of a list by their numbers are the elements of the list. -/
theorem mapM_getElem? {α β : Type} (f : α → β) (l : List α) :
    ((List.range l.length).mapM fun i => do return f (← l[i]?)) = some (l.map f) := by
  induction l with
  | nil => rfl
  | cons a l ih =>
    rw [List.length_cons, List.range_succ_eq_map, List.mapM_cons, List.mapM_map]
    simp only [List.getElem?_cons_succ, Function.comp_def, Nat.succ_eq_add_one, ih]
    rfl

theorem mapM_precAt : (List.range g.productions.length).mapM g.precAt = some (g.productions.map g.precOf?) :=
  mapM_getElem? g.precOf? g.productions

/-- With enough rounds for every loop, the tables come of the construction as they are. -/
theorem construct_eq (hb : g.build = .ok g) {rounds : Nat} (hstates : 2 ^ g.items.length < rounds)
    (hfirst : (FirstSets.facts g).length < rounds) (hfollow : (FollowSets.facts g).length < rounds) :
    g.construct rounds = some (Tables.build g).flat := by
  have hc := checked_of_build hb
  have hn := nonterminals_pos_of_build hb
  have hitems := Nat.lt_trans Nat.lt_two_pow_self hstates
  obtain ⟨f, hf, hsat⟩ := exists_firstSets hc hfirst
  rw [construct, collectStates_eq hc hitems hstates, hf]
  simp only [Option.bind_eq_bind, Option.bind_some, followSets_eq hc hn hsat hfollow, fillTable_eq hc hn hitems,
    foldlM_addRow_build, mapM_precAt]
  rfl

/-- For every grammar that passes the checks, the construction comes to its end, and no lookup misses. It gives the
tables of the grammar, with an action for each state and symbol, and every action, also behind an ambiguity, refers to a
state, a production or an ambiguity that is there. -/
theorem construct_ends (hb : g.build = .ok g) :
    (∃ bound, ∀ rounds ≥ bound, g.construct rounds = some (Tables.build g).flat) ∧
      (Tables.build g).flat.actions.length = (Tables.build g).states.length * g.symbols ∧
      (∀ action ∈ (Tables.build g).flat.actions, (Tables.build g).Contains action) ∧
      ∀ s p, (s, p) ∈ (Tables.build g).flat.ambiguities →
        (Tables.build g).Contains (.shift s) ∧ (Tables.build g).Contains (.reduce p) := by
  refine ⟨⟨2 ^ g.items.length + (FirstSets.facts g).length + (FollowSets.facts g).length + 1, fun rounds hr => ?_⟩, ?_,
    fun _ => contains_of_mem_actions, fun _ _ => contains_of_mem_ambiguities⟩
  · have := Nat.two_pow_pos g.items.length
    exact construct_eq hb (by omega) (by omega) (by omega)
  · have hrow : ∀ row ∈ (g.states g.itemTable).map g.resolutions, row.length = g.symbols := by
      intro row hrow
      obtain ⟨q, -, rfl⟩ := List.mem_map.mp hrow
      rw [resolutions, List.length_map, List.length_range]
    rw [Tables.flat, rows_toList, length_flatten_tableActions hrow, List.length_map]
    rfl

/-- A grammar without terminals. Its row may vanish and begins with itself, and one goal is named twice. -/
def barren : Grammar where
  labels := ["Goal", "Row"]
  nonterminals := 2
  productions := [⟨0, [1], none⟩, ⟨1, [1, 1], none⟩, ⟨1, [], none⟩]
  goals := [0, 0]
  precedences := []

/-- Its construction ends with three states. The row stands in for the end, and the ways over it hide the reductions. -/
theorem construct_barren : barren.build = .ok barren ∧
    (∃ bound, ∀ rounds ≥ bound, barren.construct rounds = some (Tables.build barren).flat) ∧
    (Tables.build barren).flat.actions = [.error, .goto 1, .error, .accept, .error, .goto 2] := by
  have hb : barren.build = .ok barren := rfl
  obtain ⟨hends, -⟩ := construct_ends hb
  exact ⟨hb, hends, by decide⟩

end Grammar

end Formula.LR
