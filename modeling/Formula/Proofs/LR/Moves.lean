import Formula.Proofs.LR.Soundness

/-!
# Rows of moves

A run that succeeds is a row of moves from its start to the turn that accepts (`exists_moves_of_run`), so that what the
moves preserve holds at its end. A property of tokens that every reduction hands on, from the tokens of a phrase to the
one that takes their place, passes in this way from the input to the token that is returned (`run_preserves`).
-/

namespace Formula.LR

variable {τ σ ε : Type} {g : Grammar} {s : Semantics τ σ ε}

/-- The parser comes from one configuration to another in a number of moves. -/
inductive Moves (g : Grammar) (s : Semantics τ σ ε) : Nat → Config τ σ → Config τ σ → Prop where
  | refl (c : Config τ σ) : Moves g s 0 c c
  | go {n : Nat} {c c' d : Config τ σ} (hc : c.step (Tables.build g) s = .go c') (hm : Move g s c c')
      (hd : Moves g s n c' d) : Moves g s (n + 1) c d

/-- What a move preserves, any number of moves preserve. -/
theorem Moves.preserve {P : Config τ σ → Prop} (hP : ∀ c c', P c → Move g s c c' → P c') {n : Nat}
    {c d : Config τ σ} (h : Moves g s n c d) (hc : P c) : P d := by
  induction h with
  | refl => exact hc
  | go _ hm _ ih => exact ih (hP _ _ hc hm)

theorem Moves.leads {n : Nat} {c d : Config τ σ} (h : Moves g s n c d) : Leads (Tables.build g) s n c d := by
  induction h with
  | refl => exact .refl _
  | go hc _ _ ih => exact .go hc ih

/-- Turns that lead on are moves. -/
theorem Reads.moves (hg : g.Checked) (hs : s.Lawful (Tables.build g)) {input : List τ} {bottom : Nat}
    {numbers : List Nat} {read : List τ} {c : Config τ σ} (hx : ∀ n, s.symbol (s.stream input n) < g.symbols) {n : Nat}
    {d : Config τ σ} (h : Reads g s input bottom numbers read c) (hl : Leads (Tables.build g) s n c d) :
    Moves g s n c d ∧ ∃ numbers' read', Reads g s input bottom numbers' read' d ∧
      numbers'.length + read'.length = numbers.length + read.length + n := by
  induction hl generalizing numbers read with
  | refl c => exact ⟨.refl c, _, _, h, rfl⟩
  | @go n c _ _ hc _ ih =>
    have hn := h.place.1 ▸ hx _
    obtain ⟨hmove, -⟩ := h.stacked.move hg hs hn hc
    obtain ⟨hd, numbers', read', hreads, hcount⟩ := ih (h.go hg hs hn hc)
    refine ⟨.go hc hmove hd, numbers', read', hreads, ?_⟩
    have hone : (c.reduced? (Tables.build g) s).toList.length + (c.shifted? (Tables.build g) s).toList.length = 1 := by
      cases hmove with
      | shift hd =>
        rw [Config.reduced?, Config.shifted?, hd]
        rfl
      | reduce hd =>
        rw [Config.reduced?, Config.shifted?, hd]
        rfl
    rw [hcount, List.length_append, List.length_append]
    omega

/-- Turns that end well lead to the turn that accepts. -/
theorem exists_leads_of_turns {t : Tables} {fuel : Nat} {c : Config τ σ} {token : τ}
    (h : (turns t s fuel c).result = .ok token) :
    ∃ n < fuel, ∃ d, Leads t s n c d ∧ ∃ o, d.step t s = .stop o ∧ o.result = .ok token := by
  rcases turns_cases t s fuel c with ⟨d, -, ho⟩ | ⟨n, hn, d, hd, ho⟩
  · rw [ho] at h
    cases h
  · exact ⟨n, hn, d, hd, _, ho, h⟩

/-- A run that succeeds moves from its start to the turn that accepts the one token on the stack. -/
theorem exists_moves_of_run (ha : g.Augmented) (hs : s.Lawful (Tables.build g)) {fuel index : Nat}
    {input : List τ} {memo : σ} (hx : ∀ token ∈ s.endToken :: input, s.symbol token < g.symbols) {token : τ}
    (h : (run (Tables.build g) s fuel index input memo).result = .ok token) :
    ∃ bottom n d, (Tables.build g).startState? index = some bottom ∧ n < fuel ∧
      Moves g s n (Config.start s bottom input memo) d ∧ d.stack = [token] ∧
      d.decision (Tables.build g) s = .accept ∧ s.symbol d.next = g.endMarker ∧
      ∃ goal p, g.goals[index]? = some goal ∧ g.productions[goal]? = some p ∧ p.rhs = [s.symbol token] := by
  have hstream : ∀ n, s.symbol (s.stream input n) < g.symbols := s.forall_stream hx
  have hi : index < g.goals.length := by
    by_contra hi
    have hnone : (Tables.build g).startState? index = none := if_neg hi
    rw [run, hnone] at h
    cases h
  have hstart : (Tables.build g).startState? index = some index := if_pos hi
  obtain ⟨goal, hgoal⟩ : ∃ goal, g.goals[index]? = some goal := ⟨_, List.getElem?_eq_getElem hi⟩
  have hg := List.mem_of_getElem? hgoal
  have hb := g.states_goal ha hgoal
  rw [run, hstart] at h
  obtain ⟨n, hn, d, hlead, o, hstop, ho⟩ := exists_leads_of_turns h
  obtain ⟨hmoves, numbers, read, hreads, -⟩ := (Reads.start memo).moves ha.checked hs hstream hlead
  obtain ⟨hd, hend, p, hp, hrhs, -⟩ := hreads.accept ha hs hg hb (hreads.place.1 ▸ hstream _) hstop ho
  refine ⟨index, n, d, hstart, hn, hmoves, ?_, hd, hend, goal, p, hgoal, hp, hrhs⟩
  obtain ⟨e, stats, memo, he⟩ | ⟨stats, memo, he⟩ := Config.step_eq (Tables.build g) s d
  · rw [he] at hstop
    cases hstop
    cases ho
  · rw [he] at hstop
    exact (Config.act_eq_stop hstop ho).2

/-- Behind a token that is shifted the next one is read, if there is one. -/
theorem Config.shift_ahead {c : Config τ σ} (h : c.rest ≠ []) (n : Nat) :
    (c.shift s n).next :: (c.shift s n).rest = c.rest := by
  obtain ⟨next, rest, hr⟩ := List.exists_cons_of_ne_nil h
  unfold shift advance
  dsimp only
  rw [hr]

/-! ## What is ahead -/

/-- The tokens ahead, the next one in front. -/
def Config.ahead (c : Config τ σ) : List τ := c.next :: c.rest

/-- The one parser shifts a token, and becomes the other. -/
structure Config.Shifts (t : Tables) (s : Semantics τ σ ε) (n : Nat) (c c' : Config τ σ) : Prop where
  decision : c.decision t s = .shift n
  states : c'.states = n :: c.states
  stack : c'.stack = c.next :: c.stack
  ahead : c'.ahead = c.rest

/-- A move takes the token that it shifts from those ahead. -/
theorem Move.shifts_or {c c' : Config τ σ} (hm : Move g s c c') (hrest : c.rest ≠ []) :
    (∃ n, c.Shifts (Tables.build g) s n c') ∨
      (∃ number, c.decision (Tables.build g) s = .reduce number) ∧ c'.ahead = c.ahead := by
  cases hm with
  | @shift n stats memo hd _ hc =>
    refine .inl ⟨n, hd, ?_, ?_, ?_⟩
    · rw [hc, Config.shift_states]
    · rw [hc, Config.shift_stack]
    · rw [hc]
      exact Config.shift_ahead (c := { c with stats, memo }) hrest n
  | reduce hd _ _ _ _ _ _ _ _ _ hc =>
    rw [hc]
    exact .inr ⟨⟨_, hd⟩, rfl⟩

/-- Where the tokens ahead become less, one was shifted. -/
theorem Moves.exists_shift {tail : List τ} (htail : 2 ≤ tail.length) {n : Nat} {c d : Config τ σ}
    (h : Moves g s n c d) (hc : tail <:+ c.ahead) (hd : d.ahead.length < tail.length) :
    ∃ j < n, ∃ k x y m, Moves g s j c x ∧ x.ahead = tail ∧ x.step (Tables.build g) s = .go y ∧
      x.Shifts (Tables.build g) s m y ∧ Moves g s k y d ∧ ∀ i < j, ∀ z, Leads (Tables.build g) s i c z →
        z.ahead = tail → ∀ m, z.decision (Tables.build g) s ≠ .shift m := by
  induction h with
  | refl c => exact absurd hc.length_le (Nat.not_le_of_lt hd)
  | @go n c c' d hstep hm hmoves ih =>
    have hrest : c.rest ≠ [] := by
      intro hr
      have := hc.length_le
      rw [Config.ahead, hr, List.length_singleton] at this
      omega
    -- the first move shifts the token, or the tail is still ahead after it
    by_cases hnow : c.ahead = tail ∧ ∃ m, c.decision (Tables.build g) s = .shift m
    · obtain ⟨hahead, m, hdec⟩ := hnow
      rcases hm.shifts_or hrest with ⟨m, hshift⟩ | ⟨⟨_, hdec'⟩, -⟩
      · exact ⟨0, Nat.succ_pos n, n, c, c', m, .refl c, hahead, hstep, hshift, hmoves, fun i hi =>
          absurd hi (Nat.not_lt_zero i)⟩
      · rw [hdec'] at hdec
        cases hdec
    · have hc' : tail <:+ c'.ahead := by
        rcases hm.shifts_or hrest with ⟨m, hshift⟩ | ⟨-, hahead⟩
        · rcases List.suffix_cons_iff.mp hc with rfl | hc
          · exact absurd ⟨rfl, m, hshift.decision⟩ hnow
          · exact hshift.ahead ▸ hc
        · exact hahead ▸ hc
      obtain ⟨j, hj, k, x, y, m, hx, hahead, hgo, hshift, hk, hbefore⟩ := ih hc' hd
      refine ⟨j + 1, Nat.succ_lt_succ hj, k, x, y, m, .go hstep hm hx, hahead, hgo, hshift, hk, fun i hi z hz => ?_⟩
      cases hz with
      | refl => exact fun hz m hdec => hnow ⟨hz, m, hdec⟩
      | go hstep' hz =>
        obtain rfl := Turn.go.inj (hstep.symm.trans hstep')
        exact hbefore _ (Nat.lt_of_succ_lt_succ hi) z hz

theorem Config.start_ahead {input : List τ} (h : input ≠ []) (bottom : Nat) (memo : σ) :
    (start s bottom input memo).ahead = input := by
  obtain ⟨next, rest, rfl⟩ := List.exists_cons_of_ne_nil h
  rfl

/-! ## Parts of a row of moves -/

/-- The last move. -/
theorem Moves.exists_last {n : Nat} {c d : Config τ σ} (h : Moves g s (n + 1) c d) :
    ∃ x, Moves g s n c x ∧ x.step (Tables.build g) s = .go d ∧ Move g s x d := by
  generalize hk : n + 1 = k at h
  induction h generalizing n with
  | refl => cases hk
  | @go k c c' d hstep hm hmoves ih =>
    obtain rfl := Nat.succ.inj hk
    cases n with
    | zero =>
      cases hmoves
      exact ⟨c, .refl c, hstep, hm⟩
    | succ n =>
      obtain ⟨x, hx, hlast⟩ := ih rfl
      exact ⟨x, .go hstep hm hx, hlast⟩

/-- Turns that a row of moves starts with are moves, and moves are left. -/
theorem Moves.split {n j : Nat} {c d y : Config τ σ} (h : Moves g s n c d) (hl : Leads (Tables.build g) s j c y)
    (hj : j ≤ n) : Moves g s j c y ∧ Moves g s (n - j) y d := by
  induction hl generalizing n with
  | refl c => exact ⟨.refl c, h⟩
  | @go j c c' y hstep _ ih =>
    cases h with
    | refl => cases hj
    | @go n _ c'' _ hstep' hm hmoves =>
      obtain rfl := Turn.go.inj (hstep.symm.trans hstep')
      obtain ⟨hfront, hback⟩ := ih hmoves (Nat.le_of_succ_le_succ hj)
      rw [Nat.add_sub_add_right]
      exact ⟨.go hstep hm hfront, hback⟩

/-- No turns lead past the end of a run. -/
theorem Leads.le_of_stop {t : Tables} {n j : Nat} {c d y : Config τ σ} (hl : Leads t s j c y) (h : Leads t s n c d)
    (hstop : ∀ d', d.step t s ≠ .go d') : j ≤ n := by
  induction hl generalizing n with
  | refl => exact Nat.zero_le n
  | go hstep _ ih =>
    cases h with
    | refl => exact absurd hstep (hstop _)
    | go hstep' h =>
      obtain rfl := Turn.go.inj (hstep.symm.trans hstep')
      exact Nat.succ_le_succ (ih h)

/-- There is one state more than there are tokens on the stack. -/
theorem Move.length_states {c c' : Config τ σ} (hm : Move g s c c') (hc : c.states.length = c.stack.length + 1) :
    c'.states.length = c'.stack.length + 1 := by
  cases hm with
  | shift _ _ hc' =>
    rw [hc', Config.shift_states, Config.shift_stack, List.length_cons, List.length_cons, hc]
  | reduce _ _ _ _ _ _ hlength _ _ _ hc' =>
    rw [hc', List.length_cons, List.length_cons, List.length_cons, hlength]

/-- What is ahead after a token was read: the input, or the end token for ever. -/
theorem Config.forall_advance {P : τ → Prop} {c : Config τ σ} (he : P s.endToken) (h : ∀ t ∈ c.rest, P t) :
    ∀ t ∈ (c.advance s).next :: (c.advance s).rest, P t := by
  unfold advance
  split
  · rename_i hr
    intro t ht
    rcases List.mem_cons.mp ht with rfl | ht
    · exact he
    · exact h t ht
  · rename_i next rest hr
    rw [hr] at h
    exact h

/-- The tokens that a parser has at hand: those on the stack and those ahead. -/
def Config.tokens (c : Config τ σ) : List τ := c.stack ++ c.next :: c.rest

/-- A property of tokens that reductions hand on. -/
def Semantics.HandsOn (s : Semantics τ σ ε) (g : Grammar) (P : τ → Prop) : Prop :=
  ∀ {number : Nat} {p : Production} {next token : τ} {phrase below : List τ} {memo memo' : σ},
    g.productions[number]? = some p → phrase.map s.symbol = p.rhs → (∀ t ∈ phrase, P t) →
    s.reduce number next (phrase.reverse ++ below) memo = (.ok (token :: below), memo') → P token

/-- A move keeps what reductions hand on. -/
theorem Move.forall_tokens {P : τ → Prop} (hP : s.HandsOn g P) (hend : P s.endToken) {c c' : Config τ σ}
    (hm : Move g s c c') (hc : ∀ t ∈ c.tokens, P t) : ∀ t ∈ c'.tokens, P t := by
  cases hm with
  | @shift n stats memo _ _ hc' =>
    subst hc'
    intro t ht
    rw [Config.tokens, Config.shift, Config.advance_stack, List.cons_append, List.mem_cons, List.mem_append] at ht
    rcases ht with rfl | ht | ht
    · exact hc _ (by simp [Config.tokens])
    · exact hc t (List.mem_append_left _ ht)
    · refine Config.forall_advance hend (fun t ht => hc t ?_) t ht
      exact List.mem_append_right _ (List.mem_cons_of_mem _ ht)
  | @reduce _ _ _ _ phrase below _ _ token _ _ _ _ hp hst hphrase _ _ _ hred _ _ hc' =>
    subst hc'
    rw [hst] at hred
    have htoken : P token := by
      refine hP hp hphrase (fun t ht => hc t ?_) hred
      rw [Config.tokens, hst]
      simp [ht]
    intro t ht
    rw [Config.tokens, List.cons_append, List.mem_cons] at ht
    rcases ht with rfl | ht
    · exact htoken
    · refine hc t ?_
      rw [Config.tokens, hst, List.append_assoc]
      exact List.mem_append_right _ ht

theorem Config.forall_start {P : τ → Prop} {input : List τ} (hend : P s.endToken) (hinput : ∀ t ∈ input, P t)
    (bottom : Nat) (memo : σ) : ∀ t ∈ (Config.start s bottom input memo).tokens, P t := by
  rw [Config.tokens, Config.start, Config.advance_stack, List.nil_append]
  exact Config.forall_advance hend hinput

/-- A property of tokens that reductions hand on holds of what a run returns, if it holds of what the run reads. -/
theorem run_preserves (ha : g.Augmented) (hs : s.Lawful (Tables.build g)) {P : τ → Prop} (hP : s.HandsOn g P)
    {fuel index : Nat} {input : List τ} {memo : σ}
    (hx : ∀ token ∈ s.endToken :: input, s.symbol token < g.symbols)
    (hinput : ∀ token ∈ s.endToken :: input, P token) {token : τ}
    (h : (run (Tables.build g) s fuel index input memo).result = .ok token) : P token := by
  obtain ⟨bottom, n, d, -, -, hmoves, hstack, -⟩ := exists_moves_of_run ha hs hx h
  have hend := hinput _ List.mem_cons_self
  have hstart := Config.forall_start hend (fun t ht => hinput t (List.mem_cons_of_mem _ ht)) bottom memo
  have hd := hmoves.preserve (fun _ _ hc hm => hm.forall_tokens hP hend hc) hstart
  refine hd token ?_
  rw [Config.tokens, hstack]
  exact List.mem_cons_self

end Formula.LR
