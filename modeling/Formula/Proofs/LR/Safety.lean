import Formula.Proofs.LR.Completeness
import Formula.Proofs.LR.Moves

/-!
# Runs without faults

A lawful parser never disagrees with its tables. `Reads` holds at every turn of a run, so that the states on the
stack are a path of the automaton from the start state of the goal. The one thing that is left to see is that each
turn can be carried out: behind a phrase that was reduced by a production other than a goal, the state below holds an
item with the left-hand side behind its dot, and the table leads over it (`exists_goto`). Goals are never reduced by
(`not_goal_of_decision`), and where one is accepted nothing else is on the stack.

`Config.Ends` lists what is left for a turn that ends a run: it accepts, it refuses the next token, or the language
itself answers with an error (`Reads.ends`). For a language whose reductions do not fail, a run ends with no fault
(`run_faultless`).
-/

namespace Formula.LR

namespace Grammar

variable {g : Grammar}

/-! ## Over the left-hand side -/

/-- What a closure adds is expected somewhere in it. -/
theorem Closure.exists_next {P : Item → Prop} {i : Nat} {p : Production} (h : g.Closure P ⟨i, 0⟩)
    (hP : ¬ P ⟨i, 0⟩) (hp : g.productions[i]? = some p) : ∃ k, g.Closure P k ∧ g.next? k = some p.lhs := by
  obtain ⟨-, p', hp', k, a, hk, hn, ha, hb⟩ := h.resolve_left hP
  obtain rfl := Option.some.inj (hp.symm.trans hp')
  cases hb with
  | refl => exact ⟨k, .inl hk, hn⟩
  | @tail b _ hb he =>
    -- the last edge is a production that begins with the left-hand side
    obtain ⟨-, r, hr, rfl, rest, hrhs⟩ := edge_beginnings.mp he
    obtain ⟨j, hj⟩ := List.mem_iff_getElem?.mp hr
    refine ⟨⟨j, 0⟩, .inr ⟨rfl, r, hj, k, a, hk, hn, ha, hb⟩, ?_⟩
    rw [next?, hj, Option.bind_some, hrhs]
    rfl

/-- Where a production other than a goal starts, its left-hand side stands behind a dot. -/
theorem exists_next_of_start (ha : g.Augmented) {q : State} (hq : q ∈ g.states g.itemTable) {i : Nat}
    {p : Production} (hp : g.productions[i]? = some p) (hi : i ∉ g.goals) (h : g.Holds q ⟨i, 0⟩) :
    ∃ k, g.Holds q k ∧ g.next? k = some p.lhs := by
  have hn := ha.checked.nonterminals_le
  rcases mem_states hq with ⟨goal, hg, rfl⟩ | ⟨s, x, rfl⟩
  · obtain ⟨r, -, hr, -⟩ := exists_goal ha hg
    have hne : ¬ (⟨i, 0⟩ : Item) = ⟨goal, 0⟩ := by
      rintro he
      obtain rfl : i = goal := congrArg Item.production he
      exact hi hg
    obtain ⟨k, hk, hx⟩ := ((holds_start_iff hn hr).mp h).exists_next hne hp
    exact ⟨k, (holds_start_iff hn hr).mpr hk, hx⟩
  · have hne : ¬ g.Moved (g.Holds s) x ⟨i, 0⟩ := by
      rintro ⟨k, -, -, he⟩
      exact absurd (congrArg Item.dot he) (Nat.succ_ne_zero _).symm
    obtain ⟨k, hk, hx⟩ := ((holds_advance_iff hn).mp h).exists_next hne hp
    exact ⟨k, (holds_advance_iff hn).mpr hk, hx⟩

/-- Where a state follows, the symbol stands behind the dot of an item. -/
theorem mem_rhs_of_after {q : State} {x : Nat} (h : (g.after q x).isEmpty = false) :
    ∃ p ∈ g.productions, x ∈ p.rhs := by
  unfold after ItemTable.advance at h
  dsimp only at h
  split at h
  · cases h
  · obtain ⟨n, hn⟩ := not_isEmpty_iff.mp ‹_›
    rw [IndexSet.has_next, Bool.and_eq_true, IndexSet.has_inter, Bool.and_eq_true] at hn
    obtain ⟨k, -, hk⟩ := has_before.mp hn.2.2
    obtain ⟨p, hp, hx⟩ := Option.bind_eq_some_iff.mp hk
    exact ⟨p, List.mem_of_getElem? hp, List.mem_of_getElem? hx⟩

/-- Only symbols of right-hand sides come to stand on a stack. -/
theorem Stacked.mem_rhs (hc : g.Checked) {bottom : Nat} {states row : List Nat} (h : g.Stacked bottom states row)
    {x : Nat} (hx : x ∈ row) : ∃ p ∈ g.productions, x ∈ p.rhs := by
  induction h with
  | start => cases hx
  | push _ _ hn ih =>
    rcases List.mem_cons.mp hx with rfl | hx
    · exact mem_rhs_of_after (isEmpty_of_mem_states hc (List.mem_of_getElem? hn))
    · exact ih hx

/-- What is left of a cell is one of its candidates. -/
theorem mem_reduce_of_resolve {x i : Nat} {c : Cell}
    (h : g.resolve x c = .reduce i ∨ ∃ n, g.resolve x c = .ambiguous n i) : i ∈ c.reduce := by
  unfold resolve at h
  split at h
  · rcases h with h | ⟨_, h⟩ <;> cases h
  · split at h
    · rcases h with h | ⟨_, h⟩ <;> cases h
    · rcases h with h | ⟨_, h⟩ <;> cases h
    · rcases h with h | ⟨_, h⟩ <;> cases h
    · rename_i p _ _ _ hr
      rcases h with h | ⟨_, h⟩
      · cases h
        rw [hr]
        exact List.mem_cons_self
      · cases h
    · rename_i n p _ _ _ hr
      rw [hr]
      rcases settle_cases (g := g) x n p with hs | hs | hs | hs <;> rw [hs] at h <;>
        rcases h with h | ⟨_, h⟩ <;> cases h <;> exact List.mem_cons_self

end Grammar

variable {τ σ ε : Type} {g : Grammar} {s : Semantics τ σ ε} {input : List τ} {bottom goal : Nat}
  {numbers : List Nat} {read : List τ} {c : Config τ σ}

/-- If the end token is on no right-hand side, no more is read than the input. -/
theorem Reads.length_le (hc : g.Checked) (hend : ∀ p ∈ g.productions, s.symbol s.endToken ∉ p.rhs)
    (h : Reads g s input bottom numbers read c) : read.length ≤ input.length := by
  by_contra hlt
  have hread : s.symbol s.endToken ∈ read.map s.symbol := by
    refine List.mem_map_of_mem ?_
    rw [h.read_eq]
    refine List.mem_map.mpr ⟨input.length, List.mem_range.mpr (Nat.lt_of_not_le hlt), ?_⟩
    rw [Semantics.stream, List.getElem?_eq_none (Nat.le_refl _)]
    rfl
  have hrow := (h.rightmost [] (by simp)).mem_of_mem hend (List.mem_append_left _ hread)
  rw [List.append_nil, List.mem_reverse] at hrow
  obtain ⟨p, hp, hx⟩ := h.stacked.mem_rhs hc hrow
  exact hend p hp hx

/-- The table leads over the left-hand side of a production that starts in the state. -/
theorem exists_goto (ha : g.Augmented) {n : Nat} {q : State} (hq : (g.states g.itemTable)[n]? = some q) {i : Nat}
    {p : Production} (hp : g.productions[i]? = some p) (hi : i ∉ g.goals) (h : g.Holds q ⟨i, 0⟩) :
    ∃ m, (Tables.build g).lookup n p.lhs = .goto m := by
  obtain ⟨k, hk, hx⟩ := g.exists_next_of_start ha (List.mem_of_getElem? hq) hp hi h
  obtain ⟨m, hm, -⟩ := lookup_goto ha hq hk hx (ha.checked.lhs_lt p (List.mem_of_getElem? hp))
  exact ⟨m, hm⟩

/-- No turn of a lawful parser reduces by a goal. -/
theorem not_goal_of_decision (hs : s.Lawful (Tables.build g)) {q : State}
    (hq : (g.states g.itemTable)[c.state]? = some q) (hx : s.symbol c.next < g.symbols) {i : Nat}
    (hd : c.decision (Tables.build g) s = .reduce i) : i ∉ g.goals := by
  obtain ⟨number, hl, hchoice⟩ := lookup_eq hq hx
  suffices hmem : i ∈ (g.cell q (s.symbol c.next)).reduce from (Grammar.mem_reduce_cell.mp hmem).2.1
  refine Grammar.mem_reduce_of_resolve (g := g) (x := s.symbol c.next) ?_
  cases hr : g.resolve (s.symbol c.next) (g.cell q (s.symbol c.next)) with
  | ambiguous n p =>
    rw [hr] at hl
    rw [Config.decision, hl] at hd
    dsimp only [Resolution.action] at hd
    cases hc : s.choose number c.next c.stack c.rest c.memo with
    | mk answer memo =>
      rw [hc] at hd
      cases answer with
      | error e => cases hd
      | ok action =>
        obtain rfl : action = .reduce i := hd
        rcases hs.choose hc with h | h | h
        · rw [hchoice n p hr] at h
          cases h
        · rw [hchoice n p hr] at h
          cases h
          exact .inr ⟨n, rfl⟩
        · cases h
  | reduce p =>
    rw [hr] at hl
    rw [Config.decision_of_lookup hl (by rintro _ ⟨⟩)] at hd
    cases hd
    exact .inl rfl
  | error | accept | shift | goto =>
    rw [hr] at hl
    rw [Config.decision_of_lookup hl (by rintro _ ⟨⟩)] at hd
    cases hd

/-! ## The last turn -/

/-- How a turn ends a run without a fault: it accepts the one token on the stack, it refuses the next token, or the
language answers with an error, about an open choice or about the phrase on top of the stack. -/
inductive Config.Ends (t : Tables) (s : Semantics τ σ ε) (c : Config τ σ) : Except ε τ → Prop where
  | accept {token : τ} (hd : c.decision t s = .accept) (hstack : c.stack = [token]) : Ends t s c (.ok token)
  | refuse (hd : c.decision t s = .error ∨ ∃ n, c.decision t s = .goto n) : Ends t s c (.error (s.unexpected c.next))
  | choose {number : Nat} {e : ε} {memo : σ} (hl : t.lookup c.state (s.symbol c.next) = .ambiguous number)
      (hc : s.choose number c.next c.stack c.rest c.memo = (.error e, memo)) : Ends t s c (.error e)
  | reduce {number : Nat} {p : Production} {e : ε} {memo memo' : σ} (hd : c.decision t s = .reduce number)
      (hp : t.grammar.productions[number]? = some p)
      (hphrase : (c.stack.take p.rhs.length).map s.symbol = p.rhs.reverse)
      (hreduce : s.reduce number c.next c.stack memo = (.error e, memo')) : Ends t s c (.error e)

/-- A turn that ends the run of a lawful parser ends it without a fault. -/
theorem Reads.ends (ha : g.Augmented) (hs : s.Lawful (Tables.build g)) (hg : goal ∈ g.goals)
    (hb : (g.states g.itemTable)[bottom]? = some (g.start g.itemTable goal))
    (h : Reads g s input bottom numbers read c) (hx : s.symbol c.next < g.symbols) {o : Outcome τ σ ε}
    (hc : c.step (Tables.build g) s = .stop o) : c.Ends (Tables.build g) s o.result := by
  obtain ⟨r, -, hr, -⟩ := g.exists_goal ha hg
  obtain ⟨q, hq⟩ := h.stacked.exists_top hb
  have hd := sanctioned_decision (c := c) hs hq hx
  obtain ⟨number, e, stats, memo, hl, hchoose, hstep⟩ | ⟨stats, memo, hstep⟩ := Config.step_cases (Tables.build g) s c
  · rw [hstep] at hc
    cases hc
    exact .choose hl hchoose
  rw [hstep] at hc
  generalize hdecision : c.decision (Tables.build g) s = action at hc hd
  cases hd with
  | error =>
    cases hc
    exact .refuse (.inl hdecision)
  | goto _ _ _ =>
    cases hc
    exact .refuse (.inr ⟨_, hdecision⟩)
  | shift _ _ _ => cases hc
  | accept _ hi hp hh =>
    obtain ⟨p, x, hp', hrhs⟩ := g.exists_goal ha hi
    obtain rfl := Option.some.inj (hp.symm.trans hp')
    obtain ⟨-, hrow⟩ := h.stacked.goal ha hg hb hq hi hp hh
    rw [hrhs] at hrow
    obtain ⟨token, hstack, -⟩ := List.map_eq_singleton_iff.mp hrow
    simp only [Config.act, Config.accept, hstack] at hc
    cases hc
    exact .accept hdecision hstack
  | @reduce i p hp hh =>
    obtain ⟨hlen, htake⟩ := h.phrase ha hb hr hq hp hh
    rw [← List.map_take] at htake
    cases hreduce : s.reduce i c.next c.stack memo with
    | mk answer memo' =>
      cases answer with
      | error e =>
        simp only [Config.act, Config.reduce, hreduce] at hc
        cases hc
        exact .reduce hdecision hp htake hreduce
      | ok stack =>
        -- a reduction that succeeds is carried out
        obtain ⟨token, -, rfl⟩ := hs.reduce hp hlen hreduce
        obtain ⟨-, -, q', hq', hh'⟩ := h.stacked.item ha.checked.nonterminals_le hb hr hq hp hh
        obtain ⟨n, hgoto⟩ := exists_goto ha hq' hp (not_goal_of_decision hs hq hx hdecision) hh'
        have hcount : c.states.length = c.stack.length + 1 := by rw [h.stacked.length_eq, List.length_map]
        have hact := Config.act_reduce (c := ({ c with stats, memo } : Config τ σ)) (t := Tables.build g) hp hreduce
          (by dsimp only; rw [List.length_drop, List.length_drop, hcount]; omega) hgoto
        rw [hact] at hc
        cases hc

/-! ## Runs -/

/-- What is come to on the way reads the input. -/
theorem Reads.of_leads (hg : g.Checked) (hs : s.Lawful (Tables.build g))
    (hx : ∀ token ∈ s.endToken :: input, s.symbol token < g.symbols) {index n : Nat} {memo : σ} {d : Config τ σ}
    (hd : Leads (Tables.build g) s n (Config.start s index input memo) d) :
    Moves g s n (Config.start s index input memo) d ∧
      ∃ numbers read, Reads g s input index numbers read d ∧ numbers.length + read.length = n := by
  obtain ⟨hmoves, numbers, read, h, hcount⟩ := (Reads.start memo).moves hg hs (s.forall_stream hx) hd
  exact ⟨hmoves, numbers, read, h, hcount.trans (Nat.zero_add n)⟩

section

variable {index : Nat} (hi : index < g.goals.length) (fuel : Nat) (memo : σ)

include hi

theorem run_eq : run (Tables.build g) s fuel index input memo =
    turns (Tables.build g) s fuel (Config.start s index input memo) := by
  have hstart : (Tables.build g).startState? index = some index := if_pos hi
  rw [run, hstart]

theorem historyOf_eq : historyOf (Tables.build g) s fuel index input memo =
    history (Tables.build g) s fuel (Config.start s index input memo) := by
  have hstart : (Tables.build g).startState? index = some index := if_pos hi
  rw [historyOf, hstart]

/-- A run uses up its fuel, or comes to a turn that ends it without a fault. -/
theorem run_ends (ha : g.Augmented) (hs : s.Lawful (Tables.build g))
    (hx : ∀ token ∈ s.endToken :: input, s.symbol token < g.symbols) :
    let start := Config.start s index input memo
    let result := (run (Tables.build g) s fuel index input memo).result
    (∃ d, Leads (Tables.build g) s fuel start d ∧ result = .error (s.fault .stalled)) ∨
      ∃ n < fuel, ∃ d, Leads (Tables.build g) s n start d ∧ d.Ends (Tables.build g) s result := by
  dsimp only
  rw [run_eq hi]
  rcases turns_cases (Tables.build g) s fuel (Config.start s index input memo) with ⟨d, hd, ho⟩ | ⟨n, hn, d, hd, ho⟩
  · rw [ho]
    exact .inl ⟨d, hd, rfl⟩
  · obtain ⟨-, numbers, read, h, -⟩ := Reads.of_leads ha.checked hs hx hd
    have hb := g.states_goal ha (List.getElem?_eq_getElem hi)
    exact .inr ⟨n, hn, d, hd, h.ends ha hs (List.getElem_mem hi) hb (h.place.1 ▸ s.forall_stream hx _) ho⟩

end

/-- A run of a lawful parser whose reductions do not fail meets no fault. At every turn there is one state more than
there are tokens, and the states are a path of the automaton from the start state of the goal, by the symbols of the
tokens. If the run does not use up its fuel, it comes to a turn where it accepts the one token on the stack, refuses
the next token, or is told by the language to give up on an open choice. -/
theorem run_faultless (ha : g.Augmented) (hs : s.Lawful (Tables.build g)) (ht : s.Total (Tables.build g))
    {index : Nat} (hi : index < g.goals.length)
    (hx : ∀ token ∈ s.endToken :: input, s.symbol token < g.symbols) (fuel : Nat) (memo : σ) :
    let turns := historyOf (Tables.build g) s fuel index input memo
    let result := (run (Tables.build g) s fuel index input memo).result
    (∃ goal, g.goals[index]? = some goal ∧
      (g.states g.itemTable)[index]? = some (g.start g.itemTable goal)) ∧
    (∀ c ∈ turns, c.states.length = c.stack.length + 1 ∧ g.Stacked index c.states (c.stack.map s.symbol)) ∧
    (turns.length = fuel ∧ result = .error (s.fault .stalled) ∨
      ∃ c ∈ turns, (∃ token, c.stack = [token] ∧ result = .ok token) ∨ result = .error (s.unexpected c.next) ∨
        ∃ number e, (s.choose number c.next c.stack c.rest c.memo).1 = .error e ∧ result = .error e) ∧
    ∀ f, s.fault f ≠ s.fault .stalled → (∀ token, s.unexpected token ≠ s.fault f) →
      (∀ number next stack rest memo, (s.choose number next stack rest memo).1 ≠ .error (s.fault f)) →
        result ≠ .error (s.fault f) := by
  intro turns result
  have hgoal := List.getElem?_eq_getElem hi
  have hlast : turns.length = fuel ∧ result = .error (s.fault .stalled) ∨
      ∃ c ∈ turns, (∃ token, c.stack = [token] ∧ result = .ok token) ∨ result = .error (s.unexpected c.next) ∨
        ∃ number e, (s.choose number c.next c.stack c.rest c.memo).1 = .error e ∧ result = .error e := by
    rw [show turns = _ from historyOf_eq hi fuel memo]
    rcases run_ends hi fuel memo ha hs hx with ⟨d, hd, ho⟩ | ⟨n, hn, d, hd, hends⟩
    · exact .inl ⟨hd.length_history, ho⟩
    · refine .inr ⟨d, hd.mem_history hn, ?_⟩
      change d.Ends (Tables.build g) s result at hends
      generalize result = answer at hends
      cases hends with
      | accept _ hstack => exact .inl ⟨_, hstack, rfl⟩
      | refuse _ => exact .inr (.inl rfl)
      | choose _ hc => exact .inr (.inr ⟨_, _, by rw [hc], rfl⟩)
      | reduce _ hp hphrase hreduce =>
        obtain ⟨token, memo', -, hok⟩ := ht _ _ d.next d.stack _ hp hphrase
        rw [hok] at hreduce
        cases hreduce
  refine ⟨⟨_, hgoal, g.states_goal ha hgoal⟩, fun c hc => ?_, hlast, fun f hstalled hunexpected hchoose hf => ?_⟩
  · rw [show turns = _ from historyOf_eq hi fuel memo] at hc
    obtain ⟨n, -, hd⟩ := exists_leads_of_mem_history hc
    obtain ⟨-, numbers, read, h, -⟩ := Reads.of_leads ha.checked hs hx hd
    exact ⟨by rw [h.stacked.length_eq, List.length_map], h.stacked⟩
  · rcases hlast with ⟨-, h⟩ | ⟨c, -, ⟨token, -, h⟩ | h | ⟨number, e, hc, h⟩⟩
    · exact hstalled (Except.error.inj (hf.symm.trans h))
    · cases hf.symm.trans h
    · exact hunexpected c.next (Except.error.inj (h.symm.trans hf))
    · obtain rfl := Except.error.inj (h.symm.trans hf)
      exact hchoose _ _ _ _ _ hc

/-- The parser for symbols alone that settles every choice for the shift. -/
def shifter (t : Tables) : Semantics Nat Unit (Option Fault) where
  symbol := id
  endToken := t.grammar.endMarker
  choose number _ _ _ _ := (.ok (t.choice number).1, ())
  reduce number _ stack _ :=
    match t.grammar.productions[number]? with
    | some p => (.ok (p.lhs :: stack.drop p.rhs.length), ())
    | none => (.error (some (.unknownProduction number)), ())
  unexpected _ := none
  fault := some

theorem lawful_shifter (t : Tables) : (shifter t).Lawful t where
  choose := by
    rintro number next stack rest memo action memo' ⟨⟩
    exact .inl rfl
  reduce := by
    intro number next stack memo stack' memo' p hp _ h
    simp only [shifter, hp] at h
    cases h
    exact ⟨p.lhs, rfl, rfl⟩

theorem total_shifter (t : Tables) : (shifter t).Total t := by
  intro number p next stack memo hp _
  refine ⟨p.lhs, (), rfl, ?_⟩
  simp only [shifter, hp]

/-- A sum that breaks off, read behind an open choice: its last sign is refused, and no fault is met on the way. -/
theorem run_sums_faultless :
    let t := Tables.build sums
    let turns := historyOf t (shifter t) 100 0 [2, 3, 2, 3, 3] ()
    let result := (run t (shifter t) 100 0 [2, 3, 2, 3, 3] ()).result
    result = .error none ∧ (∀ c ∈ turns, sums.Stacked 0 c.states (c.stack.map (shifter t).symbol)) ∧
      ∀ f ≠ .stalled, result ≠ .error (some f) := by
  have hi : 0 < sums.goals.length := by decide
  have hx : ∀ token ∈ [4, 2, 3, 2, 3, 3], token < sums.symbols := by decide
  obtain ⟨-, hstacked, -, hfault⟩ := run_faultless augmented_sums (lawful_shifter (Tables.build sums))
    (total_shifter (Tables.build sums)) hi hx 100 ()
  refine ⟨by rfl, fun c hc => (hstacked c hc).2, fun f hf => ?_⟩
  exact hfault f (fun h => hf (Option.some.inj h)) (fun _ h => by cases h) (fun _ _ _ _ _ h => by cases h)

end Formula.LR
