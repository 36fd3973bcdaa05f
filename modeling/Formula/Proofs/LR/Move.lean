import Formula.Proofs.LR.Stack
import Formula.Proofs.LR.Turn

/-!
# Moves

What a turn does to the stack if it leads to another one, with the phrase of a reduction in view: `Move`. A turn of a
lawful parser whose states are a path of the automaton is a move, and the states stay such a path
(`Grammar.Stacked.move`).
-/

namespace Formula.LR

variable {τ σ ε : Type} {g : Grammar} {s : Semantics τ σ ε} {bottom : Nat} {c : Config τ σ}

/-- What a turn that leads to another one has done. -/
inductive Move (g : Grammar) (s : Semantics τ σ ε) (c c' : Config τ σ) : Prop where
  /-- The next token was shifted. -/
  | shift {n : Nat} {stats : Stats} {memo : σ} (hd : c.decision (Tables.build g) s = .shift n)
      (ht : g.IsTerminal (s.symbol c.next)) (hc : c' = ({ c with stats, memo } : Config τ σ).shift s n)
  /-- The phrase of a production made room for one token, and the states behind it for one state. -/
  | reduce {number n bottom : Nat} {p : Production} {phrase below : List τ} {above states : List Nat} {token : τ}
      {stats : Stats} {memo memo' : σ} (hd : c.decision (Tables.build g) s = .reduce number)
      (hp : g.productions[number]? = some p) (hstack : c.stack = phrase.reverse ++ below)
      (hphrase : phrase.map s.symbol = p.rhs) (hstates : c.states = above ++ bottom :: states)
      (habove : above.length = p.rhs.length) (hlength : states.length = below.length)
      (hreduce : s.reduce number c.next c.stack memo = (.ok (token :: below), memo'))
      (htoken : s.symbol token = p.lhs) (hgoto : (Tables.build g).lookup bottom p.lhs = .goto n)
      (hc : c' = ⟨n :: bottom :: states, token :: below, c.next, c.rest, stats, memo'⟩)

theorem Config.advance_stack (c : Config τ σ) : (c.advance s).stack = c.stack := by
  unfold advance
  split <;> rfl

theorem Config.advance_states (c : Config τ σ) : (c.advance s).states = c.states := by
  unfold advance
  split <;> rfl

theorem Config.start_states (bottom : Nat) (input : List τ) (memo : σ) :
    (start s bottom input memo).states = [bottom] := advance_states _

theorem Config.start_stack (bottom : Nat) (input : List τ) (memo : σ) : (start s bottom input memo).stack = [] :=
  advance_stack _

theorem Config.shift_states (c : Config τ σ) (n : Nat) : (c.shift s n).states = n :: c.states :=
  advance_states _

theorem Config.shift_stack (c : Config τ σ) (n : Nat) : (c.shift s n).stack = c.next :: c.stack :=
  advance_stack _

theorem Config.shift_memo (c : Config τ σ) (n : Nat) : (c.shift s n).memo = c.memo := by
  unfold shift advance
  dsimp only
  split <;> rfl

/-- A parser whose turn leads to another is in a state. -/
theorem exists_state_of_go {c c' : Config τ σ} (hx : s.symbol c.next < g.symbols)
    (hc : c.step (Tables.build g) s = .go c') : ∃ q, (g.states g.itemTable)[c.state]? = some q := by
  cases hq : (g.states g.itemTable)[c.state]? with
  | some q => exact ⟨q, rfl⟩
  | none =>
    rw [Config.step, lookup_eq_error hq hx] at hc
    cases hc

/-- Where the table leads over a symbol, the states stay a path of the automaton. -/
theorem Grammar.Stacked.goto {states row : List Nat} (h : g.Stacked bottom states row) {n x : Nat}
    (hx : x < g.symbols) (hl : (Tables.build g).lookup (states.headD 0) x = .goto n) :
    g.Stacked bottom (n :: states) (x :: row) := by
  cases hq : (g.states g.itemTable)[states.headD 0]? with
  | none =>
    rw [lookup_eq_error hq hx] at hl
    cases hl
  | some q =>
    rcases lookup_sanctioned hq hx with hgoto | ⟨_, hgoto, -⟩
    · rw [hl] at hgoto
      cases hgoto with
      | goto _ _ hn => exact .push h hq hn
    · rw [hl] at hgoto
      cases hgoto

/-- A turn that leads to another is a move, and the states stay a path of the automaton. Nothing is asked of the state
at the bottom. -/
theorem Grammar.Stacked.move (hg : g.Checked) (hs : s.Lawful (Tables.build g))
    (h : g.Stacked bottom c.states (c.stack.map s.symbol)) (hx : s.symbol c.next < g.symbols) {c' : Config τ σ}
    (hc : c.step (Tables.build g) s = .go c') :
    Move g s c c' ∧ g.Stacked bottom c'.states (c'.stack.map s.symbol) := by
  obtain ⟨q, hq⟩ := exists_state_of_go hx hc
  have hd := sanctioned_decision (c := c) hs hq hx
  obtain ⟨e, stats, memo, he⟩ | ⟨stats, memo, he⟩ := Config.step_eq (Tables.build g) s c
  · rw [he] at hc
    cases hc
  rw [he] at hc
  rcases Config.act_eq_go hc with ⟨n, hm, rfl⟩ | ⟨number, p, stack, top, below, n, _, _, hm, hp, hred, hdrop,
    hl, rfl⟩
  · rw [hm] at hd
    cases hd with
    | shift ht _ hn =>
      refine ⟨.shift hm ht rfl, ?_⟩
      rw [Config.shift_states, Config.shift_stack]
      exact .push h hq hn
  · rw [hm] at hd
    cases hd with
    | reduce hp' hi =>
      obtain rfl := Option.some.inj (hp.symm.trans hp')
      have hdrop : c.states.drop p.rhs.length = top :: below := hdrop
      have hcount : c.states.length = c.stack.length + 1 := by rw [h.length_eq, List.length_map]
      have hbelow : c.states.length - p.rhs.length = below.length + 1 := by
        rw [← List.length_drop, hdrop, List.length_cons]
      have hlen : p.rhs.length ≤ c.stack.length := by omega
      obtain ⟨htake, -⟩ := h.read hg.nonterminals_le hq hp hi (by rwa [List.length_map])
      rw [List.take_length] at htake
      obtain ⟨token, htok, rfl⟩ := hs.reduce hp hlen hred
      constructor
      · have hstack : c.stack = (c.stack.take p.rhs.length).reverse.reverse ++ c.stack.drop p.rhs.length := by
          rw [List.reverse_reverse, List.take_append_drop]
        refine .reduce hm hp hstack ?_ (by rw [← hdrop, List.take_append_drop]) ?_ ?_ hred htok hl rfl
        · rw [List.map_reverse, List.map_take, htake, List.reverse_reverse]
        · rw [List.length_take]
          omega
        · rw [List.length_drop]
          omega
      · have hlt := Nat.lt_of_lt_of_le (hg.lhs_lt p (List.mem_of_getElem? hp)) hg.nonterminals_le
        have hstacked := h.drop (k := p.rhs.length) (by rwa [List.length_map])
        rw [hdrop, ← List.map_drop] at hstacked
        rw [← htok] at hl hlt
        exact hstacked.goto hlt hl

end Formula.LR
