import Formula.Proofs.LR.Conflict
import Formula.Proofs.LR.Soundness

/-!
# What the rules prescribe

The table of a grammar is the one that the rules of SLR parsing and of precedence prescribe, cell by cell.
`Prescribed` states the rules without the construction: the state after a symbol is a least set of items (`Goto`), the
reductions are those of productions that were read to their ends and whose left-hand side the symbol may follow
(`Reducible`), the first of them is the one with the smallest number, and `Preferred` decides between a shift and a
reduction. Every look-up gives the one action that is prescribed (`lookup_iff`).

An open choice is known by the number of those in front of it, row by row (`Tables.openBefore`).
-/

namespace Formula.LR

namespace Grammar

variable (g : Grammar)

/-! ## The rules -/

/-- The items after a symbol: the dot moves over it, and what is expected then may begin. -/
def Goto (q : State) (x : Nat) : Item → Prop := g.LeastClosure (g.Moved (g.Holds q) x)

/-- There are items after the symbol, and they are those of the state with the number. -/
def Enters (q : State) (x m : Nat) : Prop :=
  (∃ item, g.Goto q x item) ∧
    ∃ s, (g.states g.itemTable)[m]? = some s ∧ ∀ item, g.Holds s item ↔ g.Goto q x item

/-- The input ends where a goal was read to its end. -/
def Accepts (q : State) (x : Nat) : Prop :=
  x = g.endMarker ∧ ∃ i ∈ g.goals, ∃ p, g.productions[i]? = some p ∧ g.Holds q ⟨i, p.rhs.length⟩

/-- A production other than a goal was read to its end, and the symbol may follow its left-hand side. -/
def Reducible (q : State) (x i : Nat) : Prop :=
  i ∉ g.goals ∧ ∃ p, g.productions[i]? = some p ∧ g.Holds q ⟨i, p.rhs.length⟩ ∧ g.Follows p.lhs x

/-- The first of the productions to reduce by. -/
def Reduces (q : State) (x i : Nat) : Prop :=
  g.Reducible q x i ∧ ∀ j, g.Reducible q x j → i ≤ j

/-- A production has its own precedence, or else that of its last terminal. -/
inductive Binds (i : Nat) : Prec → Prop where
  | own {p : Production} {r : Prec} (hp : g.productions[i]? = some p) (h : p.prec = some r) : Binds i r
  | last {p : Production} {r : Prec} {before after : List Nat} {a : Nat} (hp : g.productions[i]? = some p)
      (h : p.prec = none) (hr : p.rhs = before ++ a :: after) (ha : g.IsTerminal a)
      (hafter : ∀ b ∈ after, b < g.nonterminals) (ht : g.tokenPrec? a = some r) : Binds i r

/-- What precedence decides between the shift to a state and the reduction by a production. Where one side has no
precedence, both are kept. -/
inductive Preferred (x m i number : Nat) (choice : Action × Action) : Action → Prop where
  | reduce {r t : Prec} (hr : g.Binds i r) (ht : g.tokenPrec? x = some t)
      (h : t.level < r.level ∨ t.level = r.level ∧ r.assoc = .left) : Preferred x m i number choice (.reduce i)
  | shift {r t : Prec} (hr : g.Binds i r) (ht : g.tokenPrec? x = some t)
      (h : r.level < t.level ∨ t.level = r.level ∧ r.assoc = .right) : Preferred x m i number choice (.shift m)
  | neither {r t : Prec} (hr : g.Binds i r) (ht : g.tokenPrec? x = some t)
      (h : t.level = r.level ∧ r.assoc = .none) : Preferred x m i number choice .error
  | missing (h : g.tokenPrec? x = none ∨ ∀ r, ¬ g.Binds i r) (hc : choice = (.shift m, .reduce i)) :
      Preferred x m i number choice (.ambiguous number)

/-- The action for a symbol in a state. An open choice gets the number, and its two sides are the choice. -/
inductive Prescribed (q : State) (x number : Nat) (choice : Action × Action) : Action → Prop where
  | accept (h : g.Accepts q x) : Prescribed q x number choice .accept
  | goto {m : Nat} (hx : x < g.nonterminals) (hs : g.Enters q x m) : Prescribed q x number choice (.goto m)
  | error (h : ¬ g.Accepts q x) (hs : ∀ item, ¬ g.Goto q x item) (hr : ∀ i, ¬ g.Reducible q x i) :
      Prescribed q x number choice .error
  | shift {m : Nat} (hx : g.IsTerminal x) (h : ¬ g.Accepts q x) (hs : g.Enters q x m)
      (hr : ∀ i, ¬ g.Reducible q x i) : Prescribed q x number choice (.shift m)
  | reduce {i : Nat} (h : ¬ g.Accepts q x) (hs : ∀ item, ¬ g.Goto q x item) (hr : g.Reduces q x i) :
      Prescribed q x number choice (.reduce i)
  | conflict {m i : Nat} {a : Action} (h : ¬ g.Accepts q x) (hs : g.Enters q x m) (hr : g.Reduces q x i)
      (ha : g.Preferred x m i number choice a) : Prescribed q x number choice a

variable {g}

/-! ## Precedence -/

/-- The last terminal of a row has only nonterminals behind it. -/
theorem find?_reverse_eq_some_iff {row : List Nat} {a : Nat} :
    row.reverse.find? (g.nonterminals ≤ ·) = some a ↔
      g.IsTerminal a ∧ ∃ before after, row = before ++ a :: after ∧ ∀ b ∈ after, b < g.nonterminals := by
  rw [List.find?_eq_some_iff_append]
  simp only [decide_eq_true_eq, Bool.not_eq_true', decide_eq_false_iff_not, Nat.not_le]
  refine and_congr_right fun _ => ⟨?_, ?_⟩
  · rintro ⟨after, before, h, hafter⟩
    refine ⟨before.reverse, after.reverse, ?_, fun b hb => hafter b (List.mem_reverse.mp hb)⟩
    simpa using congrArg List.reverse h
  · rintro ⟨before, after, rfl, hafter⟩
    exact ⟨after.reverse, before.reverse, by simp, fun b hb => hafter b (List.mem_reverse.mp hb)⟩

theorem productionPrec?_eq_some_iff {i : Nat} {r : Prec} : g.productionPrec? i = some r ↔ g.Binds i r := by
  rw [productionPrec?, Option.bind_eq_some_iff]
  constructor
  · rintro ⟨p, hp, h⟩
    rw [precOf?] at h
    cases hprec : p.prec with
    | some r' =>
      rw [hprec] at h
      cases h
      exact .own hp hprec
    | none =>
      rw [hprec] at h
      obtain ⟨a, ha, ht⟩ := Option.bind_eq_some_iff.mp h
      obtain ⟨hterm, before, after, hr, hafter⟩ := find?_reverse_eq_some_iff.mp ha
      exact .last hp hprec hr hterm hafter ht
  · rintro (⟨hp, h⟩ | ⟨hp, h, hr, ha, hafter, ht⟩)
    · exact ⟨_, hp, by rw [precOf?, h]; rfl⟩
    · refine ⟨_, hp, ?_⟩
      rw [precOf?, h, find?_reverse_eq_some_iff.mpr ⟨ha, _, _, hr, hafter⟩]
      exact ht

section

variable {x m i number : Nat} {choice : Action × Action}

/-- What a shift against a reduction is settled for is preferred. -/
theorem preferred_settle (hc : g.settle x m i = .ambiguous m i → choice = (.shift m, .reduce i)) :
    g.Preferred x m i number choice ((g.settle x m i).action number) := by
  unfold settle at hc ⊢
  split at hc
  · rename_i r t hr ht
    rw [productionPrec?_eq_some_iff] at hr
    clear hc
    split
    · exact .reduce hr ht (.inl ‹_›)
    · split
      · exact .shift hr ht (.inl ‹_›)
      · have he : t.level = r.level := by omega
        cases ha : r.assoc with
        | left => exact .reduce hr ht (.inr ⟨he, ha⟩)
        | right => exact .shift hr ht (.inr ⟨he, ha⟩)
        | none => exact .neither hr ht ⟨he, ha⟩
  · rename_i hnone
    refine .missing ?_ (hc rfl)
    cases ht : g.tokenPrec? x with
    | none => exact .inl rfl
    | some t => exact .inr fun r hr => hnone r t (productionPrec?_eq_some_iff.mpr hr) ht

theorem settle_of_preferred {a : Action} (h : g.Preferred x m i number choice a) :
    (g.settle x m i).action number = a := by
  cases h with
  | reduce hr ht h =>
    rw [settle, productionPrec?_eq_some_iff.mpr hr, ht]
    rcases h with h | ⟨he, ha⟩
    · simp only [if_pos h]
      rfl
    · simp only [he, ha, Nat.lt_irrefl, if_false]
      rfl
  | shift hr ht h =>
    rw [settle, productionPrec?_eq_some_iff.mpr hr, ht]
    rcases h with h | ⟨he, ha⟩
    · simp only [if_pos h, if_neg (Nat.lt_asymm h)]
      rfl
    · simp only [he, ha, Nat.lt_irrefl, if_false]
      rfl
  | neither hr ht h =>
    rw [settle, productionPrec?_eq_some_iff.mpr hr, ht]
    simp only [h.1, h.2, Nat.lt_irrefl, if_false]
    rfl
  | missing h _ =>
    rw [settle]
    split
    · rename_i r t hr ht
      rcases h with h | h
      · rw [h] at ht
        cases ht
      · exact absurd (productionPrec?_eq_some_iff.mp hr) (h r)
    · rfl

end

/-! ## Candidates -/

theorem holds_after_iff (hc : g.Checked) {q : State} {x : Nat} {item : Item} :
    g.Holds (g.after q x) item ↔ g.Goto q x item := by
  rw [after, holds_advance_iff hc.nonterminals_le, closure_iff hc, Goto]

section

variable (hc : g.Checked) {q : State} (hq : q ∈ g.states g.itemTable) {x : Nat} (hx : x < g.symbols)

include hc

/-- The state after a symbol is empty only if it has no items. -/
theorem isEmpty_after_iff : (g.after q x).isEmpty = true ↔ ∀ item, ¬ g.Goto q x item := by
  simp only [← holds_after_iff hc]
  constructor
  · rintro he item ⟨n, -, hn⟩
    rw [IndexSet.isEmpty_iff.mp he n] at hn
    cases hn
  · intro h
    by_contra hne
    obtain ⟨n, hn⟩ := not_isEmpty_iff.mp hne
    exact h _ ⟨n, List.getElem?_eq_getElem (below_after hc.nonterminals_le q x n hn), hn⟩

/-- The number of the next state is that of the one state with its items. -/
theorem number?_eq_some_iff {m : Nat} : g.automaton.number? (g.after q x) = some m ↔ g.Enters q x m := by
  constructor
  · intro h
    obtain ⟨he, hm⟩ := states_of_number? h
    refine ⟨?_, _, hm, fun item => holds_after_iff hc⟩
    by_contra hnone
    rw [(isEmpty_after_iff hc).mpr (not_exists.mp hnone)] at he
    cases he
  · rintro ⟨⟨item, hi⟩, s, hm, hs⟩
    have hne : ¬ (g.after q x).isEmpty = true := fun he => (isEmpty_after_iff hc).mp he item hi
    obtain rfl : s = g.after q x :=
      eq_of_holds (below_states hc (List.mem_of_getElem? hm)) (below_after hc.nonterminals_le q x)
        fun item => (hs item).trans (holds_after_iff hc).symm
    obtain ⟨hlt, hm⟩ := List.getElem?_eq_some_iff.mp hm
    rw [Automaton.number?, if_neg hne]
    refine List.idxOf?_eq_some_iff.mpr ⟨hlt, hm, fun j hj he => ?_⟩
    exact Nat.ne_of_lt hj (nodup_states.getElem_inj_iff.mp (he.trans hm.symm))

include hq hx

/-- A symbol leads to no state only if there are no items after it. -/
theorem number?_eq_none_iff : g.automaton.number? (g.after q x) = none ↔ ∀ item, ¬ g.Goto q x item := by
  rw [← isEmpty_after_iff hc]
  constructor
  · intro hnone
    by_contra hne
    have he := Bool.eq_false_iff.mpr hne
    obtain ⟨n, hn⟩ := exists_number? (states_after hc hq hx he) he
    rw [hn] at hnone
    cases hnone
  · intro he
    rw [Automaton.number?, if_pos he]

end

variable {q : State} {x : Nat}

theorem mem_reduce_cell_iff {i : Nat} : i ∈ (g.cell q x).reduce ↔ g.Reducible q x i := by
  rw [mem_reduce_cell, Reducible]
  constructor
  · rintro ⟨⟨p, hp, hi⟩, hg, hf⟩
    exact ⟨hg, p, hp, hi, (isFollowedBy_iff hp).mp hf⟩
  · rintro ⟨hg, p, hp, hi, hf⟩
    exact ⟨⟨p, hp, hi⟩, hg, (isFollowedBy_iff hp).mpr hf⟩

/-- The first candidate is the production with the smallest number. -/
theorem reduces_iff {i : Nat} : g.Reduces q x i ↔ ∃ rest, (g.cell q x).reduce = i :: rest := by
  have hsorted : (g.cell q x).reduce.Pairwise (· < ·) := (pairwise_completed q).filter _
  simp only [Reduces, ← mem_reduce_cell_iff]
  cases hr : (g.cell q x).reduce with
  | nil => simp
  | cons j rest =>
    rw [hr, List.pairwise_cons] at hsorted
    constructor
    · rintro ⟨hi, hle⟩
      rcases List.mem_cons.mp hi with rfl | hi
      · exact ⟨rest, rfl⟩
      · exact absurd (hsorted.1 i hi) (Nat.not_lt_of_le (hle j List.mem_cons_self))
    · rintro ⟨_, he⟩
      obtain ⟨rfl, rfl⟩ := List.cons.inj he
      refine ⟨List.mem_cons_self, List.forall_mem_cons.mpr ⟨Nat.le_refl j, fun k hk => ?_⟩⟩
      exact Nat.le_of_lt (hsorted.1 k hk)

theorem reduce_eq_nil_iff : (g.cell q x).reduce = [] ↔ ∀ i, ¬ g.Reducible q x i := by
  simp only [List.eq_nil_iff_forall_not_mem, mem_reduce_cell_iff]

/-- What may be reduced before a symbol is reduced before a terminal. -/
theorem Reducible.isTerminal (hc : g.Checked) (ht : g.nonterminals < g.symbols) {i : Nat} (h : g.Reducible q x i) :
    g.IsTerminal x := by
  obtain ⟨-, p, hp, -, hf⟩ := h
  exact hf.isTerminal ht (hc.lhs_lt p (List.mem_of_getElem? hp))

/-! ## Cells -/

section

variable (hc : g.Checked) (ht : g.nonterminals < g.symbols) (hq : q ∈ g.states g.itemTable) (hx : x < g.symbols)
  {number : Nat} {choice : Action × Action}

include hc ht hq hx

/-- What became of a cell is prescribed. -/
theorem prescribed_resolve
    (hchoice : ∀ m i, g.resolve x (g.cell q x) = .ambiguous m i → choice = (.shift m, .reduce i)) :
    g.Prescribed q x number choice ((g.resolve x (g.cell q x)).action number) := by
  by_cases hacc : (g.cell q x).accept = true
  · rw [resolve, if_pos hacc]
    exact .accept (accept_cell.mp hacc)
  have hnot : ¬ g.Accepts q x := fun h => hacc (accept_cell.mpr h)
  have hgoto := g.goto_cell_eq q x
  have hshift := g.shift_cell_eq q x
  rw [resolve, if_neg hacc] at hchoice ⊢
  by_cases hn : x < g.nonterminals
  · rw [if_pos hn] at hgoto hshift
    have hred : ∀ i, ¬ g.Reducible q x i := fun i h => Nat.not_le_of_lt hn (h.isTerminal hc ht)
    cases hnum : g.automaton.number? (g.after q x) with
    | some m =>
      rw [hgoto, hnum]
      exact .goto hn ((number?_eq_some_iff hc).mp hnum)
    | none =>
      rw [hgoto, hshift, hnum, reduce_eq_nil_iff.mpr hred]
      exact .error hnot ((number?_eq_none_iff hc hq hx).mp hnum) hred
  · rw [if_neg hn] at hgoto hshift
    cases hnum : g.automaton.number? (g.after q x) with
    | none =>
      have hs := (number?_eq_none_iff hc hq hx).mp hnum
      cases hr : (g.cell q x).reduce with
      | nil =>
        rw [hgoto, hshift, hnum]
        exact .error hnot hs (reduce_eq_nil_iff.mp hr)
      | cons i rest =>
        rw [hgoto, hshift, hnum]
        exact .reduce hnot hs (reduces_iff.mpr ⟨rest, hr⟩)
    | some m =>
      have hs := (number?_eq_some_iff hc).mp hnum
      cases hr : (g.cell q x).reduce with
      | nil =>
        rw [hgoto, hshift, hnum]
        exact .shift (Nat.le_of_not_lt hn) hnot hs (reduce_eq_nil_iff.mp hr)
      | cons i rest =>
        rw [hgoto, hshift, hnum, hr] at hchoice
        rw [hgoto, hshift, hnum]
        exact .conflict hnot hs (reduces_iff.mpr ⟨rest, hr⟩) (preferred_settle (hchoice m i))

/-- Nothing else is prescribed. -/
theorem resolve_of_prescribed {a : Action} (h : g.Prescribed q x number choice a) :
    (g.resolve x (g.cell q x)).action number = a := by
  have hgoto := g.goto_cell_eq q x
  have hshift := g.shift_cell_eq q x
  have hacc : ¬ g.Accepts q x → ¬ (g.cell q x).accept = true := fun h hacc => h (accept_cell.mp hacc)
  cases h with
  | accept h =>
    rw [resolve, if_pos (accept_cell.mpr h)]
    rfl
  | goto hn hs =>
    have hnot : ¬ g.Accepts q x := by
      rintro ⟨rfl, -⟩
      exact Nat.not_le_of_lt hn (Nat.le_sub_one_of_lt ht)
    rw [resolve, if_neg (hacc hnot), hgoto, if_pos hn, (number?_eq_some_iff hc).mpr hs]
    rfl
  | error h hs hr =>
    rw [(number?_eq_none_iff hc hq hx).mpr hs, ite_self] at hgoto hshift
    rw [resolve, if_neg (hacc h), hgoto, hshift, reduce_eq_nil_iff.mpr hr]
    rfl
  | shift hn h hs hr =>
    rw [(number?_eq_some_iff hc).mpr hs, if_neg (Nat.not_lt_of_le hn)] at hgoto hshift
    rw [resolve, if_neg (hacc h), hgoto, hshift, reduce_eq_nil_iff.mpr hr]
    rfl
  | reduce h hs hr =>
    obtain ⟨rest, hr⟩ := reduces_iff.mp hr
    rw [(number?_eq_none_iff hc hq hx).mpr hs, ite_self] at hgoto hshift
    rw [resolve, if_neg (hacc h), hgoto, hshift, hr]
    rfl
  | conflict h hs hr ha =>
    have hn := hr.1.isTerminal hc ht
    obtain ⟨rest, hr⟩ := reduces_iff.mp hr
    rw [(number?_eq_some_iff hc).mpr hs, if_neg (Nat.not_lt_of_le hn)] at hgoto hshift
    rw [resolve, if_neg (hacc h), hgoto, hshift, hr]
    exact settle_of_preferred ha

end

end Grammar

/-! ## Open choices -/

/-- The table leaves it to the language what to do. -/
def Action.isOpen : Action → Bool
  | .ambiguous _ => true
  | _ => false

/-- How many choices are left open in front of a cell: in the rows of the states before, and in its own row. -/
def Tables.openBefore (t : Tables) (n x : Nat) : Nat :=
  (((List.range n).flatMap fun m => (List.range t.grammar.symbols).map (t.lookup m)) ++
    (List.range x).map (t.lookup n)).countP Action.isOpen

variable {g : Grammar}

theorem isOpen_action (r : Resolution) (number : Nat) : (r.action number).isOpen = r.choice?.isSome := by
  cases r <;> rfl

/-- The open choices in the front of a row. -/
theorem countP_row {n x : Nat} {q : State} (hq : (g.states g.itemTable)[n]? = some q) (hx : x ≤ g.symbols) :
    ((List.range x).map ((Tables.build g).lookup n)).countP Action.isOpen =
      (openChoices ((g.resolutions q).take x)).length := by
  rw [openChoices, List.length_filterMap_eq_countP, Grammar.resolutions, ← List.map_take, List.take_range,
    Nat.min_eq_left hx, List.countP_map, List.countP_map]
  refine List.countP_congr fun y hy => ?_
  have hlt : y < g.symbols := Nat.lt_of_lt_of_le (List.mem_range.mp hy) hx
  rw [Function.comp, Function.comp, lookup_eq_action hq hlt, isOpen_action]

/-- The open choices in the first rows. -/
theorem countP_rows {n : Nat} (hn : n ≤ (g.states g.itemTable).length) :
    ((List.range n).flatMap fun m => (List.range g.symbols).map ((Tables.build g).lookup m)).countP Action.isOpen =
      (openChoices (((g.states g.itemTable).map g.resolutions).take n).flatten).length := by
  induction n with
  | zero => rfl
  | succ n ih =>
    have hq := List.getElem?_eq_getElem (Nat.lt_of_succ_le hn)
    have hrow := countP_row hq (Nat.le_refl _)
    rw [List.take_of_length_le (Nat.le_of_eq (Grammar.length_resolutions _))] at hrow
    rw [List.range_succ, List.flatMap_append, List.countP_append, ih (Nat.le_of_succ_le hn), List.flatMap_singleton,
      hrow, List.take_add_one, List.getElem?_map, hq, Option.map_some, Option.toList_some, List.flatten_append,
      openChoices_append, List.length_append, List.flatten_singleton]

theorem openBefore_eq {n x : Nat} {q : State} (hq : (g.states g.itemTable)[n]? = some q) (hx : x ≤ g.symbols) :
    (Tables.build g).openBefore n x = (openChoices (g.resolutionsBefore n q x)).length := by
  have hn := Nat.le_of_lt (List.getElem?_eq_some_iff.mp hq).1
  rw [Tables.openBefore, List.countP_append, Grammar.resolutionsBefore, openChoices_append, List.length_append,
    countP_row hq hx]
  exact congrArg (· + _) (countP_rows hn)

/-- The choices that are kept are those that the look-ups leave open. -/
theorem size_ambiguities :
    (Tables.build g).ambiguities.size = (Tables.build g).openBefore (g.states g.itemTable).length 0 := by
  have hrows := countP_rows (g := g) (Nat.le_refl _)
  rw [List.take_of_length_le (by simp)] at hrows
  rw [ambiguities_build, List.size_toArray, Tables.openBefore, List.range_zero, List.map_nil, List.append_nil]
  exact hrows.symm

/-! ## The whole table -/

/-- Every look-up gives the action that is prescribed, and no other is. The open choices are numbered row by row, and
each number leads to the two sides of its choice. -/
theorem lookup_iff (hb : g.build = .ok g) (ht : g.nonterminals < g.symbols) :
    let t := Tables.build g
    (∀ n q, (g.states g.itemTable)[n]? = some q → ∀ x < g.symbols, ∀ a,
      t.lookup n x = a ↔ g.Prescribed q x (t.openBefore n x) (t.choice (t.openBefore n x)) a) ∧
    t.ambiguities.size = t.openBefore (g.states g.itemTable).length 0 := by
  intro t
  refine ⟨fun n q hq x hx a => ?_, size_ambiguities⟩
  have hc := Grammar.checked_of_build hb
  have hm := List.mem_of_getElem? hq
  have hnumber := openBefore_eq hq (Nat.le_of_lt hx)
  rw [show t.lookup n x = _ from lookup_eq_action hq hx, ← hnumber]
  constructor
  · rintro rfl
    refine Grammar.prescribed_resolve hc ht hm hx fun m i h => ?_
    rw [show t.openBefore n x = _ from hnumber]
    exact choice_eq hq hx h
  · exact Grammar.resolve_of_prescribed hc ht hm hx

/-- Behind two sums, a sign may be shifted or the sums be added up: no precedence decides. -/
theorem prescribed_sums : ∃ q, (sums.states sums.itemTable)[4]? = some q ∧
    sums.Prescribed q 3 0 (.shift 3, .reduce 1) (.ambiguous 0) := by
  have hstates : (sums.states sums.itemTable).length = 5 := by decide
  obtain ⟨q, hq⟩ : ∃ q, (sums.states sums.itemTable)[4]? = some q :=
    ⟨_, List.getElem?_eq_getElem (by rw [hstates]; decide)⟩
  have h := ((lookup_iff (g := sums) rfl (by decide)).1 4 q hq 3 (by decide) (.ambiguous 0)).mp (by decide)
  have hnumber : (Tables.build sums).openBefore 4 3 = 0 := by decide
  have hchoice : (Tables.build sums).choice 0 = (.shift 3, .reduce 1) := by decide
  rw [hnumber, hchoice] at h
  exact ⟨q, hq, h⟩

end Formula.LR
