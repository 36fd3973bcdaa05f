import Formula.Proofs.LR.Conflict
import Formula.Proofs.LR.Stack
import Formula.Proofs.LR.Turn

/-!
# Every sentence is accepted

When the tables report no conflicts, the parser follows any derivation of its input. `yields_leads` is by
induction on what a row of symbols stands for: if the top state holds an item with the row behind its dot, and
the terminals that the row stands for are next, then some turns put the row on the stack and move the dot to
the end. Where a phrase is finished the terminal behind it follows its left-hand side, so that the table has
the reduction, unless acceptance hides it. But acceptance stands only where a goal is finished, and there the
stack is that goal's symbol alone: the run succeeds at once.
-/

namespace Formula.LR

variable {τ σ ε : Type} {g : Grammar} {s : Semantics τ σ ε} {bottom goal x : Nat} {c : Config τ σ}

/-- Every phrase on the stack can be reduced to a token of the left-hand side. -/
def Semantics.Total (s : Semantics τ σ ε) (t : Tables) : Prop :=
  ∀ number p next stack memo, t.grammar.productions[number]? = some p →
    (stack.take p.rhs.length).map s.symbol = p.rhs.reverse →
      ∃ token memo', s.symbol token = p.lhs ∧
        s.reduce number next stack memo = (.ok (token :: stack.drop p.rhs.length), memo')

/-- The symbols that the parser has not shifted; behind them stand end markers. -/
def Config.Ahead (s : Semantics τ σ ε) (word : List Nat) (c : Config τ σ) : Prop :=
  s.symbol c.next = word.headD (s.symbol s.endToken) ∧ c.rest.map s.symbol = word.tail

theorem Config.advance_ahead {word : List Nat} (h : c.rest.map s.symbol = word) :
    (c.advance s).Ahead s word := by
  subst h
  unfold advance Ahead
  cases c.rest <;> exact ⟨rfl, rfl⟩

/-- The top state holds the item, and the terminals of the word are next. -/
structure Faces (g : Grammar) (s : Semantics τ σ ε) (bottom : Nat) (item : Item) (word : List Nat)
    (c : Config τ σ) : Prop where
  stacked : g.Stacked bottom c.states (c.stack.map s.symbol)
  holds : ∃ q, (g.states g.itemTable)[c.state]? = some q ∧ g.Holds q item
  ahead : c.Ahead s word
  word : ∀ a ∈ word, a < g.symbols ∧ g.IsTerminal a

/-- Some turns lead to acceptance of the symbol. -/
def Succeeds (t : Tables) (s : Semantics τ σ ε) (x : Nat) (c : Config τ σ) : Prop :=
  ∃ n d o token, Leads t s n c d ∧ d.step t s = .stop o ∧ o.result = .ok token ∧ s.symbol token = x

theorem Succeeds.of_leads {t : Tables} {n : Nat} {d : Config τ σ} (h : Leads t s n c d)
    (hd : Succeeds t s x d) : Succeeds t s x c := by
  obtain ⟨m, e, o, token, he, h'⟩ := hd
  exact ⟨n + m, e, o, token, h.trans he, h'⟩

/-- What the theorem asks of a grammar and a language. -/
structure Fits (g : Grammar) (s : Semantics τ σ ε) : Prop where
  augmented : g.Augmented
  markerless : ∀ p ∈ g.productions, g.endMarker ∉ p.rhs
  conflicts : (Tables.build g).conflicts = ⟨0, 0, 0⟩
  total : s.Total (Tables.build g)
  marker : s.symbol s.endToken = g.endMarker

namespace Faces

variable {i d : Nat} {p : Production} {row word : List Nat}

theorem next? (hp : g.productions[i]? = some p) (hd : p.rhs.drop d = x :: row) :
    g.next? ⟨i, d⟩ = some x ∧ x ∈ p.rhs ∧ p.rhs.drop (d + 1) = row := by
  have hx : p.rhs[d]? = some x := by
    rw [← List.head?_drop, hd]
    rfl
  refine ⟨by rw [Grammar.next?, hp, Option.bind_some, hx], List.mem_of_getElem? hx, ?_⟩
  rw [← List.tail_drop, hd]
  rfl

/-- A terminal behind the dot is shifted. -/
theorem shift (hf : Fits g s) (hp : g.productions[i]? = some p) (hd : p.rhs.drop d = x :: row)
    (h : Faces g s bottom ⟨i, d⟩ (x :: word) c) :
    ∃ n, Leads (Tables.build g) s 1 c (c.shift s n) ∧
      Faces g s bottom ⟨i, d + 1⟩ word (c.shift s n) ∧
      (c.shift s n).states = n :: c.states ∧ (c.shift s n).stack = c.next :: c.stack ∧
      s.symbol c.next = x := by
  obtain ⟨q, hq, hi⟩ := h.holds
  obtain ⟨hx, hmem, -⟩ := next? hp hd
  obtain ⟨hlt, ht⟩ := h.word x List.mem_cons_self
  have hnext : s.symbol c.next = x := h.ahead.1
  have hne : x ≠ g.endMarker := fun he => hf.markerless p (List.mem_of_getElem? hp) (he ▸ hmem)
  obtain ⟨n, hl, hn⟩ := lookup_shift hf.augmented hf.conflicts hq hi hx hlt ht hne
  have hstates : (c.shift s n).states = n :: c.states := by
    unfold Config.shift Config.advance
    split <;> rfl
  have hstack : (c.shift s n).stack = c.next :: c.stack := by
    unfold Config.shift Config.advance
    split <;> rfl
  refine ⟨n, .one (Config.step_shift (by rw [hnext]; exact hl)), ?_, hstates, hstack, hnext⟩
  constructor
  · rw [hstates, hstack, List.map_cons, hnext]
    exact .push h.stacked hq hn
  · refine ⟨g.after q x, by rw [Config.state, hstates]; exact hn, ?_⟩
    exact (g.holds_advance_iff hf.augmented.checked.nonterminals_le).mpr (.inl ⟨_, hi, hx, rfl⟩)
  · exact Config.advance_ahead h.ahead.2
  · exact fun a ha => h.word a (List.mem_cons_of_mem x ha)

/-- A finished phrase is reduced, unless the run succeeds instead: the states and tokens below it stay, and the
dot moves over its left-hand side. -/
theorem reduce (hf : Fits g s) (hg : goal ∈ g.goals) (hb : (g.states g.itemTable)[bottom]? =
      some (g.start g.itemTable goal)) {r : Production} (hr : g.productions[goal]? = some r)
    (hrx : r.rhs = [x]) {b : Config τ σ} (hbelow : g.Stacked bottom b.states (b.stack.map s.symbol))
    {q : State} (hq : (g.states g.itemTable)[b.state]? = some q) (hi : g.Holds q ⟨i, d⟩)
    (hp : g.productions[i]? = some p) {j : Nat} {p' : Production} (hd : p.rhs.drop d = p'.lhs :: row)
    (hp' : g.productions[j]? = some p') (h : Faces g s bottom ⟨j, p'.rhs.length⟩ word c)
    {states : List Nat} {stack : List τ} (hstates : c.states = states ++ b.states)
    (hstack : c.stack = stack ++ b.stack) (hlen : states.length = p'.rhs.length)
    (hrow : stack.map s.symbol = p'.rhs.reverse)
    (hfollow : g.Follows p'.lhs (word.headD g.endMarker)) :
    Succeeds (Tables.build g) s x c ∨ ∃ n token e, Leads (Tables.build g) s 1 c e ∧
      Faces g s bottom ⟨i, d + 1⟩ word e ∧ e.states = n :: b.states ∧ e.stack = token :: b.stack ∧
      s.symbol token = p'.lhs := by
  obtain ⟨q', hq', hj⟩ := h.holds
  obtain ⟨hx, hmem, -⟩ := next? hp hd
  have hm := List.mem_of_getElem? hp
  have hl := hf.augmented.checked.lhs_lt p' (List.mem_of_getElem? hp')
  have hnext : s.symbol c.next = word.headD g.endMarker := hf.marker ▸ h.ahead.1
  have hword : word.headD g.endMarker < g.symbols ∧ g.IsTerminal (word.headD g.endMarker) := by
    cases word with
    | nil =>
      have := hf.augmented.terminal
      simp only [List.headD_nil, Grammar.endMarker, Grammar.IsTerminal]
      omega
    | cons a word => exact h.word a List.mem_cons_self
  have hgoal : j ∉ g.goals := fun hj =>
    hf.augmented.fresh p hm _ hmem (List.mem_filterMap.mpr ⟨j, hj, by rw [hp']; rfl⟩)
  rcases lookup_reduce hf.conflicts hq' hp' hj hgoal hword.1 hword.2 hfollow with
    hred | ⟨hend, goal', hg', r', hr', hfin⟩
  · refine .inr ?_
    have hslen : stack.length = p'.rhs.length := by
      rw [← List.length_map (f := s.symbol), hrow, List.length_reverse]
    have hdrop : c.states.drop p'.rhs.length = b.states := by rw [hstates, ← hlen, List.drop_left]
    have hdrop' : c.stack.drop p'.rhs.length = b.stack := by rw [hstack, ← hslen, List.drop_left]
    have htake : (c.stack.take p'.rhs.length).map s.symbol = p'.rhs.reverse := by
      rw [hstack, ← hslen, List.take_left, hrow]
    obtain ⟨token, memo, htok, hr⟩ := hf.total j p' c.next c.stack c.memo hp' htake
    obtain ⟨n, hgoto, hn⟩ := lookup_goto hf.augmented hq hi hx hl
    have hstep := Config.act_reduce (t := Tables.build g) (n := n) hp' hr
      (by rw [hdrop, hdrop', hbelow.length_eq, List.length_map]) (by rw [hdrop]; exact hgoto)
    rw [hdrop, hdrop'] at hstep
    have hgo : c.step (Tables.build g) s =
        .go ⟨n :: b.states, token :: b.stack, c.next, c.rest,
          { c.stats with reductions := c.stats.reductions + 1 }, memo⟩ := by
      rw [Config.step, hnext, hred]
      exact hstep
    refine ⟨n, token, _, .one hgo, ⟨?_, ?_, h.ahead, h.word⟩, rfl, rfl, htok⟩
    · rw [List.map_cons, htok]
      exact .push hbelow hq hn
    · exact ⟨_, hn, (g.holds_advance_iff hf.augmented.checked.nonterminals_le).mpr
        (.inl ⟨_, hi, hx, rfl⟩)⟩
  · refine .inl ?_
    -- the parser is about to accept: nothing but the symbol of the goal is on the stack
    obtain ⟨rfl, hrow'⟩ := h.stacked.goal hf.augmented hg hb hq' hg' hr' hfin
    obtain rfl := Option.some.inj (hr'.symm.trans hr)
    rw [hrx] at hrow'
    obtain ⟨token, hc, htok⟩ := List.map_eq_singleton_iff.mp hrow'
    refine ⟨0, c, _, token, .refl c, Config.step_accept ?_ hc, rfl, htok⟩
    rw [hnext, hend]
    exact lookup_accept hf.augmented hq' hg hr hfin

end Faces

/-- The turns that follow a derivation: what the row stands for is read, the row is put on the stack, and the
dot moves behind it. Or the run succeeds on the way. -/
theorem yields_leads (hf : Fits g s) (hg : goal ∈ g.goals) (hb : (g.states g.itemTable)[bottom]? =
      some (g.start g.itemTable goal)) {r : Production} (hr : g.productions[goal]? = some r)
    (hrx : r.rhs = [x]) {row word : List Nat} (hy : g.Yields row word) {i d : Nat} {p : Production}
    (hp : g.productions[i]? = some p) (hd : p.rhs.drop d = row) {after : List Nat}
    (h : Faces g s bottom ⟨i, d⟩ (word ++ after) c)
    (hfollow : g.Follows p.lhs (after.headD g.endMarker)) :
    Succeeds (Tables.build g) s x c ∨ ∃ n e states stack, Leads (Tables.build g) s n c e ∧
      Faces g s bottom ⟨i, p.rhs.length⟩ after e ∧ e.states = states ++ c.states ∧
      e.stack = stack ++ c.stack ∧ states.length = row.length ∧ stack.map s.symbol = row.reverse := by
  induction hy generalizing c i d p after with
  | nil =>
    obtain ⟨q, hq, hi⟩ := h.holds
    obtain ⟨p', hp', hle⟩ := hi.production
    obtain rfl := Option.some.inj (hp.symm.trans hp')
    obtain rfl : d = p.rhs.length := Nat.le_antisymm hle (List.drop_eq_nil_iff.mp hd)
    exact .inr ⟨0, c, [], [], .refl c, h, rfl, rfl, rfl, rfl⟩
  | @terminal a row word _ _ ih =>
    obtain ⟨n, hlead, hface, hstates, hstack, hnext⟩ := Faces.shift hf hp hd h
    rcases ih hp (Faces.next? hp hd).2.2 hface hfollow with hsucc |
      ⟨m, e, states, stack, hlead', hface', hstates', hstack', hlen, hrow⟩
    · exact .inl (.of_leads hlead hsucc)
    · refine .inr ⟨_, e, states ++ [n], stack ++ [c.next], hlead.trans hlead', hface', ?_, ?_, ?_, ?_⟩
      · rw [hstates', hstates, List.append_assoc, List.singleton_append]
      · rw [hstack', hstack, List.append_assoc, List.singleton_append]
      · rw [List.length_append, hlen, List.length_singleton, List.length_cons]
      · rw [List.map_append, hrow, List.map_singleton, hnext, List.reverse_cons]
  | @node p' row phrase word hp' _ hw ihr ih =>
    obtain ⟨q, hq, hi⟩ := h.holds
    obtain ⟨j, hj⟩ := List.mem_iff_getElem?.mp hp'
    have hc := hf.augmented.checked
    have hl := hc.lhs_lt p' hp'
    obtain ⟨hx, -, hd'⟩ := Faces.next? hp hd
    rw [List.append_assoc] at h
    have hstart : Faces g s bottom ⟨j, 0⟩ (phrase ++ (word ++ after)) c :=
      ⟨h.stacked, ⟨q, hq, g.holds_start_of_next hf.augmented (List.mem_of_getElem? hq) hi hj hx⟩,
        h.ahead, h.word⟩
    have hfollow' : g.Follows p'.lhs ((word ++ after).headD g.endMarker) :=
      g.follows_of_yields hc (List.mem_of_getElem? hp) hd hl hw hfollow
    -- the phrase is read and reduced, then the rest of the row is read
    rcases ihr hj rfl hstart hfollow' with hsucc |
      ⟨m, e, states, stack, hlead, hface, hstates, hstack, hlen, hrow⟩
    · exact .inl hsucc
    rcases Faces.reduce hf hg hb hr hrx h.stacked hq hi hp hd hj hface hstates hstack hlen hrow hfollow'
      with hsucc | ⟨n, token, e', hlead', hface', hstates', hstack', htok⟩
    · exact .inl (.of_leads hlead hsucc)
    have hlead := hlead.trans hlead'
    rcases ih hp hd' hface' hfollow with hsucc |
      ⟨k, e'', states'', stack'', hlead'', hface'', hstates'', hstack'', hlen'', hrow''⟩
    · exact .inl (.of_leads hlead hsucc)
    refine .inr ⟨_, e'', states'' ++ [n], stack'' ++ [token], hlead.trans hlead'', hface'', ?_, ?_, ?_, ?_⟩
    · rw [hstates'', hstates', List.append_assoc, List.singleton_append]
    · rw [hstack'', hstack', List.append_assoc, List.singleton_append]
    · rw [List.length_append, hlen'', List.length_singleton, List.length_cons]
    · rw [List.map_append, hrow'', List.map_singleton, htok, List.reverse_cons]

/-- With tables without conflicts, every sentence of a goal's symbol is accepted, as a token of the symbol. -/
theorem run_complete (hf : Fits g s) {index : Nat} (hindex : g.goals[index]? = some goal)
    {r : Production} (hr : g.productions[goal]? = some r) (hrx : r.rhs = [x]) {input : List τ}
    (hd : g.Derives [x] (input.map s.symbol)) (ht : ∀ a ∈ input, g.IsTerminal (s.symbol a)) (memo : σ) :
    ∃ turns, ∀ fuel > turns, ∃ token,
      (run (Tables.build g) s fuel index input memo).result = .ok token ∧ s.symbol token = x := by
  have hc := hf.augmented.checked
  have hg := List.mem_of_getElem? hindex
  have hb := g.states_goal hf.augmented hindex
  have hword : ∀ a ∈ input.map s.symbol, a < g.symbols ∧ g.IsTerminal a := by
    intro a ha
    refine ⟨hd.lt_symbols hc ?_ a ha, ?_⟩
    · intro b hb
      exact hc.rhs_lt r (List.mem_of_getElem? hr) b (hrx ▸ hb)
    · obtain ⟨token, hm, rfl⟩ := List.mem_map.mp ha
      exact ht token hm
  have hstates : ∀ memo : σ, (Config.start s index input memo).states = [index] ∧
      (Config.start s index input memo).stack = [] := by
    intro memo
    unfold Config.start Config.advance
    split <;> exact ⟨rfl, rfl⟩
  have hstart : Faces g s index ⟨goal, 0⟩ (input.map s.symbol ++ []) (Config.start s index input memo) := by
    rw [List.append_nil]
    refine ⟨?_, ⟨_, ?_, (g.holds_start_iff hc.nonterminals_le hr).mpr (.inl rfl)⟩,
      Config.advance_ahead rfl, hword⟩
    · rw [(hstates memo).1, (hstates memo).2]
      exact .start
    · rw [Config.state, (hstates memo).1]
      exact hb
  have hfollow : g.Follows r.lhs (([] : List Nat).headD g.endMarker) := g.follows_goal hc hg hr
  have hsucc : Succeeds (Tables.build g) s x (Config.start s index input memo) := by
    have hy := hd.yields fun a ha => (hword a ha).2
    rcases yields_leads (d := 0) hf hg hb hr hrx hy hr hrx hstart hfollow with h |
      ⟨n, e, states, stack, hlead, hface, -, hstack, -, hrow⟩
    · exact h
    -- the symbol of the goal is on the stack and the input is used up
    obtain ⟨q, hq, hi⟩ := hface.holds
    rw [(hstates memo).2, List.append_nil] at hstack
    obtain ⟨token, hs, htok⟩ := List.map_eq_singleton_iff.mp hrow
    refine ⟨n, e, _, token, hlead, Config.step_accept ?_ (hstack.trans hs), rfl, htok⟩
    rw [hface.ahead.1, List.headD_nil, hf.marker]
    exact lookup_accept hf.augmented hq hg hr hi
  obtain ⟨n, d, o, token, hlead, hstop, ho, htok⟩ := hsucc
  refine ⟨n, fun fuel hfuel => ⟨token, ?_, htok⟩⟩
  have hi : (Tables.build g).startState? index = some index :=
    if_pos (List.getElem?_eq_some_iff.mp hindex).1
  obtain ⟨k, rfl⟩ : ∃ k, fuel = n + (k + 1) := ⟨fuel - n - 1, by omega⟩
  rw [run, hi]
  dsimp only
  rw [hlead.turns, turns, hstop]
  exact ho

/-! ## A cyclic grammar -/

/-- The parser for symbols alone. -/
def recognizer (t : Tables) : Semantics Nat Unit Fault where
  symbol := id
  endToken := t.grammar.endMarker
  choose _ _ _ _ _ := (.ok .error, ())
  reduce number _ stack _ :=
    match t.grammar.productions[number]? with
    | some p => (.ok (p.lhs :: stack.drop p.rhs.length), ())
    | none => (.error (.unknownProduction number), ())
  unexpected _ := .stalled
  fault := id

theorem total_recognizer (t : Tables) : (recognizer t).Total t := by
  intro number p next stack memo hp _
  refine ⟨p.lhs, (), rfl, ?_⟩
  dsimp only [recognizer]
  rw [hp]

/-- Brackets around brackets, below a symbol that also derives itself: where the input ends, acceptance hides
the reduction to it. -/
def nested : Grammar where
  labels := ["Goal", "Text", "Nest", "(", ")", "end"]
  nonterminals := 3
  productions := [⟨0, [1], none⟩, ⟨1, [1], none⟩, ⟨1, [2], none⟩, ⟨2, [3, 2, 4], none⟩, ⟨2, [], none⟩]
  goals := [0]
  precedences := []

theorem fits_nested : Fits nested (recognizer (Tables.build nested)) where
  augmented :=
    { build := by decide
      terminal := by decide
      goals_nodup := by decide
      fresh := by decide }
  markerless := by decide
  conflicts := by rfl
  total := total_recognizer _
  marker := rfl

theorem derives_nested : nested.Derives [1] [3, 3, 4, 4] := by
  refine .head (.intro (p := ⟨1, [1], none⟩) (by decide) [] []) ?_
  refine .head (.intro (p := ⟨1, [2], none⟩) (by decide) [] []) ?_
  refine .head (.intro (p := ⟨2, [3, 2, 4], none⟩) (by decide) [] []) ?_
  refine .head (.intro (p := ⟨2, [3, 2, 4], none⟩) (by decide) [3] [4]) ?_
  exact .single (.intro (p := ⟨2, [], none⟩) (by decide) [3, 3] [4, 4])

theorem run_nested_complete : ∃ turns, ∀ fuel > turns, ∃ token,
    (run (Tables.build nested) (recognizer (Tables.build nested)) fuel 0 [3, 3, 4, 4] ()).result = .ok token ∧
      token = 1 := by
  have hd : nested.Derives [1] ([3, 3, 4, 4].map (recognizer (Tables.build nested)).symbol) :=
    derives_nested
  exact run_complete fits_nested (r := ⟨0, [1], none⟩) rfl rfl rfl hd (by decide) ()

end Formula.LR
