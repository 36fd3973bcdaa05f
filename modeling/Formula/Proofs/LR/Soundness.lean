import Formula.Proofs.LR.Move

/-!
# What is accepted is a sentence

`Reads` is the invariant of a run: whatever terminals come behind, the row on the stack and these terminals
derive, by the productions reduced by so far, the tokens shifted so far and the same terminals. A shift takes
the first of the terminals behind, a reduction goes one step back in the derivation. When the parser accepts,
the row is the one symbol of its goal, so that a run that succeeds has found a rightmost derivation of what
it read, from its last step to its first (`run_sound`). The invariant speaks of no table cell but through
`Grammar.Sanctioned`, and so neither precedence nor the choices made during the run matter for it.
-/

namespace Formula.LR

variable {τ σ ε : Type} {g : Grammar} {s : Semantics τ σ ε} {input : List τ} {bottom goal : Nat}
  {numbers : List Nat} {read : List τ} {c : Config τ σ}

/-- The parser has shifted the tokens `read`, the first of its input, and reduced by the productions
`numbers`, the last of them in front. -/
structure Reads (g : Grammar) (s : Semantics τ σ ε) (input : List τ) (bottom : Nat)
    (numbers : List Nat) (read : List τ) (c : Config τ σ) : Prop where
  stacked : g.Stacked bottom c.states (c.stack.map s.symbol)
  place : c.At s input read.length
  read_eq : read = (List.range read.length).map (s.stream input)
  terminal : ∀ a ∈ read.map s.symbol, g.IsTerminal a
  rightmost : ∀ after, (∀ a ∈ after, g.IsTerminal a) →
    g.Rightmost ((c.stack.map s.symbol).reverse ++ after) numbers (read.map s.symbol ++ after)

namespace Reads

theorem start (memo : σ) : Reads g s input bottom [] [] (Config.start s bottom input memo) where
  stacked := by
    rw [Config.start_states, Config.start_stack]
    exact .start
  place := Config.advance_at rfl
  read_eq := rfl
  terminal := by simp
  rightmost := by
    rw [Config.start_stack]
    exact fun after _ => .refl after

/-- The phrase that the top state has read to its end is on top of the stack. -/
theorem phrase (ha : g.Augmented) {r : Production}
    (hb : (g.states g.itemTable)[bottom]? = some (g.start g.itemTable goal))
    (hr : g.productions[goal]? = some r) (h : Reads g s input bottom numbers read c) {q : State}
    (hq : (g.states g.itemTable)[c.state]? = some q) {number : Nat} {p : Production}
    (hp : g.productions[number]? = some p) (hi : g.Holds q ⟨number, p.rhs.length⟩) :
    p.rhs.length ≤ c.stack.length ∧
      (c.stack.map s.symbol).take p.rhs.length = p.rhs.reverse := by
  obtain ⟨hl, ht, -⟩ := h.stacked.item ha.checked.nonterminals_le hb hr hq hp hi
  rw [List.take_length] at ht
  rw [List.length_map] at hl
  exact ⟨hl, ht⟩

/-- After a shift one more token is read. -/
theorem shift (h : Reads g s input bottom numbers read c) (ht : g.IsTerminal (s.symbol c.next)) {n : Nat}
    {stats : Stats} {memo : σ} {c' : Config τ σ} (hc' : c' = ({ c with stats, memo } : Config τ σ).shift s n)
    (hstacked : g.Stacked bottom c'.states (c'.stack.map s.symbol)) :
    Reads g s input bottom numbers (read ++ [c.next]) c' := by
  have hstack : c'.stack = c.next :: c.stack := hc' ▸ Config.shift_stack _ n
  constructor
  · exact hstacked
  · rw [List.length_append, hc']
    exact Config.advance_at h.place.2
  · conv_lhs => rw [h.read_eq, h.place.1]
    rw [List.length_append, List.length_singleton, List.range_succ, List.map_append, List.map_singleton]
  · intro a ha
    rw [List.map_append, List.mem_append, List.map_singleton, List.mem_singleton] at ha
    rcases ha with ha | rfl
    · exact h.terminal a ha
    · exact ht
  · intro after hafter
    have := h.rightmost (s.symbol c.next :: after) (List.forall_mem_cons.mpr ⟨ht, hafter⟩)
    simpa [hstack] using this

/-- A reduction goes one step back in the derivation. -/
theorem reduce (h : Reads g s input bottom numbers read c) {number : Nat} {p : Production} {phrase below : List τ}
    (hp : g.productions[number]? = some p) (hstack : c.stack = phrase.reverse ++ below)
    (hphrase : phrase.map s.symbol = p.rhs) {token : τ} (htoken : s.symbol token = p.lhs) {states : List Nat}
    {stats : Stats} {memo : σ} (hstacked : g.Stacked bottom states ((token :: below).map s.symbol)) :
    Reads g s input bottom (number :: numbers) read ⟨states, token :: below, c.next, c.rest, stats, memo⟩ := by
  refine ⟨hstacked, h.place, h.read_eq, h.terminal, fun after hafter => ?_⟩
  rw [List.map_cons, htoken, List.reverse_cons, List.append_assoc, List.singleton_append]
  refine .step hp hafter ?_
  have hrow : (c.stack.map s.symbol).reverse = (below.map s.symbol).reverse ++ p.rhs := by
    rw [hstack, List.map_append, List.reverse_append, List.map_reverse, List.reverse_reverse, hphrase]
  rw [← hrow]
  exact h.rightmost after hafter

/-- What a turn preserves. -/
theorem go (hg : g.Checked) (hs : s.Lawful (Tables.build g)) (h : Reads g s input bottom numbers read c)
    (hx : s.symbol c.next < g.symbols) {c' : Config τ σ} (hc : c.step (Tables.build g) s = .go c') :
    Reads g s input bottom ((c.reduced? (Tables.build g) s).toList ++ numbers)
      (read ++ (c.shifted? (Tables.build g) s).toList) c' := by
  obtain ⟨hmove, hstacked⟩ := h.stacked.move hg hs hx hc
  rw [Config.reduced?, Config.shifted?]
  cases hmove with
  | shift hd ht hc' =>
    rw [hd]
    exact h.shift ht hc' hstacked
  | reduce hd hp hstack hphrase _ _ _ _ htoken _ hc' =>
    subst hc'
    rw [hd, Option.toList_none, List.append_nil]
    exact h.reduce hp hstack hphrase htoken hstacked

/-- What is known when the parser accepts. -/
theorem accept (ha : g.Augmented) (hs : s.Lawful (Tables.build g)) (hg : goal ∈ g.goals)
    (hb : (g.states g.itemTable)[bottom]? = some (g.start g.itemTable goal))
    (h : Reads g s input bottom numbers read c) (hx : s.symbol c.next < g.symbols) {o : Outcome τ σ ε}
    {token : τ} (hc : c.step (Tables.build g) s = .stop o) (ho : o.result = .ok token) :
    c.decision (Tables.build g) s = .accept ∧ s.symbol c.next = g.endMarker ∧
      ∃ p, g.productions[goal]? = some p ∧ p.rhs = [s.symbol token] ∧
        g.Rightmost [s.symbol token] numbers (read.map s.symbol) := by
  obtain ⟨q, hq⟩ := h.stacked.exists_top hb
  have hd := sanctioned_decision (c := c) hs hq hx
  obtain ⟨e, stats, memo, he⟩ | ⟨stats, memo, he⟩ := Config.step_eq (Tables.build g) s c
  · rw [he] at hc
    cases hc
    cases ho
  rw [he] at hc
  obtain ⟨hm, hstack⟩ := Config.act_eq_stop hc ho
  have hstack : c.stack = [token] := hstack
  rw [hm] at hd
  cases hd with
  | @accept i p hend hi hp hh =>
    obtain ⟨rfl, hrow⟩ := h.stacked.goal ha hg hb hq hi hp hh
    have hder := h.rightmost [] (by simp)
    rw [hstack] at hrow hder
    simp only [List.map_cons, List.map_nil, List.reverse_singleton, List.append_nil] at hrow hder
    exact ⟨hm, hend, p, hp, hrow.symm, hder⟩

end Reads

/-- From the invariant at one turn, the invariant at the turn that accepts. -/
theorem Reads.turns (ha : g.Augmented) (hs : s.Lawful (Tables.build g)) (hg : goal ∈ g.goals)
    (hb : (g.states g.itemTable)[bottom]? = some (g.start g.itemTable goal))
    (hx : ∀ n, s.symbol (s.stream input n) < g.symbols) {fuel : Nat} {token : τ}
    (h : Reads g s input bottom numbers read c)
    (ht : (LR.turns (Tables.build g) s fuel c).result = .ok token) :
    ∃ last o, (history (Tables.build g) s fuel c).getLast? = some last ∧
      Reads g s input bottom
        ((reducedIn (Tables.build g) s (history (Tables.build g) s fuel c)).reverse ++ numbers)
        (read ++ shiftedIn (Tables.build g) s (history (Tables.build g) s fuel c)) last ∧
      last.step (Tables.build g) s = .stop o ∧ o.result = .ok token := by
  induction fuel generalizing c numbers read with
  | zero => cases ht
  | succ fuel ih =>
    have hn : s.symbol c.next < g.symbols := h.place.1 ▸ hx _
    rw [LR.turns] at ht
    rw [history]
    cases hc : c.step (Tables.build g) s with
    | go c' =>
      rw [hc] at ht
      obtain ⟨last, o, hlast, hreads, hstop⟩ := ih (h.go ha.checked hs hn hc) ht
      refine ⟨last, o, ?_, ?_, hstop⟩
      · rw [List.getLast?_cons, hlast]
        rfl
      · have hrev : ∀ o : Option Nat, o.toList.reverse = o.toList := by rintro (_ | _) <;> rfl
        rw [reducedIn_cons, shiftedIn_cons, List.reverse_append, hrev, List.append_assoc,
          ← List.append_assoc read]
        exact hreads
    | stop o =>
      rw [hc] at ht
      obtain ⟨hd, -⟩ := h.accept ha hs hg hb hn hc ht
      refine ⟨c, o, rfl, ?_, hc, ht⟩
      simpa [reducedIn, shiftedIn, Config.reduced?, Config.shifted?, hd] using h

/-- A run that succeeds has read a sentence: the token that it returns is of the symbol of its goal, the
productions that it reduced by, read backwards, are a rightmost derivation of the tokens that it shifted from
this symbol, these are the first tokens of the input, and the next one marks the end. -/
theorem run_sound (ha : g.Augmented) (hs : s.Lawful (Tables.build g)) {fuel index : Nat} {memo : σ}
    (hx : ∀ token ∈ s.endToken :: input, s.symbol token < g.symbols) {token : τ}
    (h : (run (Tables.build g) s fuel index input memo).result = .ok token) :
    let turns := historyOf (Tables.build g) s fuel index input memo
    let read := shiftedIn (Tables.build g) s turns
    ∃ goal p, g.goals[index]? = some goal ∧ g.productions[goal]? = some p ∧
      p.rhs = [s.symbol token] ∧
      g.Rightmost [s.symbol token] (reducedIn (Tables.build g) s turns).reverse (read.map s.symbol) ∧
      (∀ a ∈ read, g.IsTerminal (s.symbol a)) ∧
      read = (List.range read.length).map (s.stream input) ∧
      ∃ last, turns.getLast? = some last ∧ last.next = s.stream input read.length ∧
        s.symbol last.next = g.endMarker := by
  have hstream : ∀ n, s.symbol (s.stream input n) < g.symbols := by
    intro n
    rw [Semantics.stream]
    cases hn : input[n]? with
    | none => exact hx _ List.mem_cons_self
    | some a => exact hx _ (List.mem_cons_of_mem _ (List.mem_of_getElem? hn))
  have hi : index < g.goals.length := by
    by_contra hi
    have hnone : (Tables.build g).startState? index = none := if_neg hi
    rw [run, hnone] at h
    cases h
  have hstart : (Tables.build g).startState? index = some index := if_pos hi
  obtain ⟨goal, hgoal⟩ : ∃ goal, g.goals[index]? = some goal := ⟨_, List.getElem?_eq_getElem hi⟩
  have hg := List.mem_of_getElem? hgoal
  have hb := g.states_goal ha hgoal
  rw [run, hstart] at h
  rw [historyOf, hstart]
  obtain ⟨last, o, hlast, hreads, hstop, ho⟩ := (Reads.start memo).turns ha hs hg hb hstream h
  rw [List.append_nil, List.nil_append] at hreads
  obtain ⟨-, hend, p, hp, hrhs, hder⟩ :=
    hreads.accept ha hs hg hb (hreads.place.1 ▸ hstream _) hstop ho
  refine ⟨goal, p, hgoal, hp, hrhs, hder, fun a hm => ?_, hreads.read_eq, last, hlast, hreads.place.1,
    hend⟩
  exact hreads.terminal _ (List.mem_map_of_mem hm)

/-- Sums whose operator has no precedence: it is left to the language where one ends. -/
def sums : Grammar where
  labels := ["Goal", "Sum", "number", "+", "end"]
  nonterminals := 2
  productions := [⟨0, [1], none⟩, ⟨1, [1, 3, 1], none⟩, ⟨1, [2], none⟩]
  goals := [0]
  precedences := []

theorem augmented_sums : sums.Augmented where
  build := by decide
  terminal := by decide
  goals_nodup := by decide
  fresh := by decide

/-- The outline of a sum of three numbers, with every choice settled for the shift. -/
theorem run_sums_sound :
    let t := Tables.build sums
    let s := Outline.semantics t .shift .proper
    let input := [2, 3, 2, 3, 2].map Outline.leaf
    let turns := historyOf t s 100 0 input {}
    (run t s 100 0 input {}).result = .ok ⟨1, "(1 (1 2) 3 (1 (1 2) 3 (1 2)))"⟩ ∧
      sums.Rightmost [1] (reducedIn t s turns).reverse ((shiftedIn t s turns).map s.symbol) := by
  have h : (run (Tables.build sums) (Outline.semantics (Tables.build sums) .shift .proper) 100 0
      ([2, 3, 2, 3, 2].map Outline.leaf) {}).result =
        .ok ⟨1, "(1 (1 2) 3 (1 (1 2) 3 (1 2)))"⟩ := by rfl
  obtain ⟨_, _, _, _, _, hder, -⟩ :=
    run_sound augmented_sums (Outline.lawful (Tables.build sums) .shift) (by decide) h
  exact ⟨h, hder⟩

end Formula.LR
