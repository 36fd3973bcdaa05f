import Formula.Proofs.Expr.Domain

/-!
# Sets and intervals

The name of a set, a bar and an interval are read as the part of the set in that interval (`Setting.parse_setInterval`).
The bar behind the name is shifted since the rest of the text is one pair of brackets with a comma directly inside
(`Bars.isIntervalAhead_of_yields`); the interval is then read as it is alone (`Setting.InDomain.leads`), with the same
variables, and what is left to decide is whether the name stands for a set.
-/

namespace Formula

open Domain (leaves)
open Interior (Paired)
open LR (Action Config Leads Move Moves)
open Text (Position)

namespace Setting

variable {s : Setting} {stop stop' : Position} {c c' d : Config Token (List String)}

/-! ## The end of an interval -/

/-- What is no judgement is made of operands, and is one. -/
theorem Makes.isOperand {p : Phrase} {r : Rule} {payload : Payload} (hp : p.All (·.isOperand = true)) (hr : r ∉ judging)
    (h : s.Makes p r payload) : payload.All (·.isOperand = true) := by
  have hcalls : ∀ {name subscript args e}, s.Calls name subscript args e → e.isOperand = true := by
    intro name subscript args e h
    cases h <;> rfl
  have hresolve : ∀ name subscript, (s.resolve name subscript).isOperand = true :=
    resolve_induction (Q := (·.isOperand = true)) (fun _ => rfl) (fun _ _ _ => rfl) (fun _ _ _ _ => rfl)
  cases h with
  | hand _ he => exact hp.tree he
  | firstArgument he => exact List.forall_mem_singleton.mpr (hp.tree he)
  | nextArgument hs he =>
    exact List.forall_mem_append.mpr ⟨hp.trees hs, List.forall_mem_singleton.mpr (hp.tree he)⟩
  | number _ _ he =>
    obtain ⟨_, _, _, rfl⟩ := he
    rfl
  | identifier | subscript => exact hresolve _ _
  | call _ _ he | callWithoutArguments _ he | subscriptCall _ _ _ _ he => exact hcalls he
  | relation h => exact absurd (List.mem_cons_of_mem _ (List.mem_append_left _ (List.mem_map_of_mem h))) hr
  | interval h => exact absurd (List.mem_append_right _ (List.mem_map_of_mem h)) hr
  | setInterval => exact absurd (by decide) hr
  | _ => rfl

/-- A token that is less than a whole text carries operands. -/
def Operands (t : Token) : Prop := t.symbol ∉ Interior.wholes → t.payload.All (·.isOperand = true)

theorem handsOn_operands : s.HandsOn Operands := by
  intro f phrase below payload span hf hsymbols hall hm hwhole
  have hjudging : ∀ f ∈ Rule.table, f.rule ∈ judging → f.lhs ∈ Interior.wholes := by decide
  refine hm.isOperand (fun t ht => hall t ht fun hw => hwhole ?_) fun hj => hwhole (hjudging f hf hj)
  refine Interior.wholes_closed f hf (List.any_eq_true.mpr ⟨t.symbol, ?_, decide_eq_true hw⟩)
  rw [← hsymbols]
  exact List.mem_map_of_mem ht

/-- A tree that is not handed on and not made of the ends of an interval is none. -/
theorem Makes.ne_interval {p : Phrase} {r : Rule} {e : Expr} (hr : r ∉ Rule.handing.map (·.1))
    (hr' : r ∉ Rule.intervals.map (·.1)) (h : s.Makes p r (.expr e)) :
    ∀ left a b right, e ≠ .interval left a b right := by
  have hcalls : ∀ {name subscript args e}, s.Calls name subscript args e →
      ∀ left a b right, e ≠ .interval left a b right := by
    intro name subscript args e h
    cases h <;> exact nofun
  have hresolve : ∀ name subscript left a b right, s.resolve name subscript ≠ .interval left a b right :=
    resolve_induction (Q := fun e => ∀ left a b right, e ≠ .interval left a b right) (fun _ => nofun)
      (fun _ _ _ => nofun) (fun _ _ _ _ => nofun)
  cases h with
  | hand h => exact absurd (List.mem_map_of_mem h) hr
  | interval h => exact absurd (List.mem_map_of_mem h) hr'
  | number _ _ he =>
    obtain ⟨_, _, _, rfl⟩ := he
    exact nofun
  | identifier | subscript => exact hresolve _ _
  | call _ _ he | callWithoutArguments _ he | subscriptCall _ _ _ _ he => exact hcalls he
  | _ => exact nofun

/-- If one token that is none of the text is left of it, the last turn made it. -/
theorem exists_last_replaces {words : List Token} {position : Position} {goal : Goal} {names : List String} {n : Nat}
    {token : Token} (hmoves : Moves Rule.grammar (s.semantics stop) n
      (Config.start (s.semantics stop) goal.index (words ++ [.finish position]) names) c)
    (hstack : c.stack = [token]) (htoken : token.symbol.isTerminal = false) :
    ∃ k x f phrase span payload, n = k + 1 ∧ Moves Rule.grammar (s.semantics stop) k
        (Config.start (s.semantics stop) goal.index (words ++ [.finish position]) names) x ∧
      x.step Rule.tables (s.semantics stop) = .go c ∧ s.Replaces stop f phrase [] x c ∧
      s.build ⟨phrase, none⟩ f.rule x.memo = (.ok payload, c.memo) ∧ token = ⟨f.lhs, "", span, payload⟩ := by
  cases n with
  | zero =>
    cases hmoves
    rw [Config.start_stack] at hstack
    cases hstack
  | succ k =>
    obtain ⟨x, hx, hstep, hmove⟩ := hmoves.exists_last
    obtain ⟨words', -, hahead⟩ := exists_ahead_of_moves rfl hx (Config.start_ahead (by simp) _ _)
    have hrest : ∀ m, x.decision Rule.tables (s.semantics stop) = .shift m → x.rest ≠ [] := by
      intro m hd hnil
      rw [Config.ahead, hnil] at hahead
      cases words' with
      | nil => exact decision_ne_shift (congrArg Token.symbol (List.cons.inj hahead).1) m hd
      | cons _ _ => simp at hahead
    rcases shifts_or_replaces hstep hmove hrest with ⟨hterminal, m, hshift, -⟩ | ⟨f, phrase, below, hr⟩
    · have hnext := (List.cons.inj (hstack.symm.trans hshift.stack)).1
      rw [← hnext, htoken] at hterminal
      cases hterminal
    · obtain ⟨payload, span, hbuild, hstack'⟩ := hr.built
      obtain ⟨rfl, rfl⟩ := List.cons.inj (hstack.symm.trans hstack')
      exact ⟨k, x, f, phrase, span, payload, rfl, hx, hstep, hr, hbuild, rfl⟩

/-- A text that is read as an interval is reduced to one, which then becomes the whole text. -/
theorem exists_interval {words : List Token} (hwords : ∀ t ∈ words, t.payload = .nothing) {position : Position}
    {names : List String} {token : Token} {left right : Char} {a b : Expr}
    (hrun : (s.run .equation (words ++ [.finish position]) names).result = .ok token)
    (hpayload : token.payload = .expr (.interval left a b right)) :
    let stop := stopOf (words ++ [.finish position])
    ∃ n x c f phrase span, n + 2 < 8 * ((words ++ [Token.finish position]).length + 2) ∧
      Moves Rule.grammar (s.semantics stop) n
        (Config.start (s.semantics stop) Goal.equation.index (words ++ [.finish position]) names) x ∧
      x.step Rule.tables (s.semantics stop) = .go c ∧ s.Replaces stop f phrase [] x c ∧ x.next.symbol = .finish ∧
      c.stack = [⟨.interval, "", span, .expr (.interval left a b right)⟩] ∧ f.lhs = .interval ∧
      (s.run .equation (words ++ [.finish position]) names).memo = c.memo := by
  intro stop
  obtain ⟨n, d, hn, hmoves, hstack, hd, hnext, hsymbol⟩ := exists_moves hrun
  obtain ⟨stats, hstop⟩ := step_accept hd hstack
  have hmemo := congrArg LR.Outcome.memo (run_eq_of_leads hmoves.leads hstop hn)
  obtain ⟨k, c, f, phrase, span, payload, rfl, hc, -, hr, hbuild, rfl⟩ :=
    exists_last_replaces hmoves hstack (by rw [hsymbol]; rfl)
  obtain rfl : payload = .expr (.interval left a b right) := hpayload
  have hoperands := hc.preserve (P := fun c => ∀ t ∈ c.tokens, Operands t)
    (fun _ _ h hm => hm.forall_tokens (handsOn_operands.semantics _) (fun _ => trivial) h)
    (Config.forall_start (fun _ => trivial) (fun t ht _ => ?_) _ _)
  · have hmakes : s.Makes ⟨phrase, none⟩ f.rule _ := .of_build hbuild
    have hone : ∀ {y}, f.rhs = [y] → (f.rule = .plain ∨ f.rule = .bareInterval) →
        ∃ u, phrase = [u] ∧ u.symbol = y ∧ u.payload = .expr (.interval left a b right) := by
      intro y hy hwhole
      obtain ⟨u, rfl, hu⟩ := List.map_eq_singleton_iff.mp (hr.symbols.trans hy)
      obtain ⟨u', hu', htree⟩ := hmakes.of_whole hwhole
      obtain rfl := Option.some.inj hu'
      exact ⟨u, rfl, hu, htree⟩
    have hjudging : ∀ f ∈ Rule.table, f.lhs = .equation → f.rule ∈ judging →
        f.rule ∉ Rule.handing.map (·.1) ∧ f.rule ∉ Rule.intervals.map (·.1) := by
      decide
    rcases equation_rules f hr.mem hsymbol with ⟨hrule, hrhs⟩ | ⟨hrule, hrhs⟩ | hrule
    · -- expressions are operands
      obtain ⟨u, rfl, hu, htree⟩ := hone hrhs (.inl hrule)
      have hmem : u ∈ c.tokens := by simp [Config.tokens, hr.stack]
      have := hoperands u hmem (by rw [hu]; decide)
      rw [htree] at this
      cases this
    · obtain ⟨u, rfl, hu, htree⟩ := hone hrhs (.inr hrule)
      obtain ⟨k, x, g, phrase, span, payload, rfl, hx, hstep, hr', -, rfl⟩ :=
        exists_last_replaces hc hr.stack (by rw [hu]; rfl)
      obtain rfl : payload = .expr (.interval left a b right) := htree
      have hmemo' : d.memo = c.memo := by
        rw [hrule] at hbuild
        obtain ⟨e, _, he, hpure⟩ := Build.bind_eq_ok.mp hbuild
        exact (Build.pure_eq_ok.mp hpure).2.symm.trans (Phrase.expr_eq_ok.mp he).2.symm
      refine ⟨k, x, c, g, phrase, span, hn, hx, hstep, hr', ?_, ?_, hu, hmemo.trans hmemo'⟩
      · rw [← (List.cons.inj hr'.ahead).1, ← (List.cons.inj hr.ahead).1]
        exact hnext
      · rw [hr.stack, ← hu]
        rfl
    · obtain ⟨hhanding, hintervals⟩ := hjudging f hr.mem hsymbol hrule
      exact absurd rfl (hmakes.ne_interval hhanding hintervals left a b right)
  · rcases List.mem_append.mp ht with ht | ht
    · rw [hwords t ht]
      trivial
    · rw [List.mem_singleton.mp ht]
      trivial

/-! ## Behind the name of a set -/

/-- A bar behind a lone name is shifted if the rest of the text is an interval. -/
theorem decision_bar {n q k : Nat} (hl : Rule.tables.lookup n Symbol.bar.index = .ambiguous k)
    (hk : Rule.tables.choice k = (.shift q, .reduce Rule.identifier.index)) (hstate : d.state = n)
    (hnext : d.next.symbol = .bar) {name : Token} (hstack : d.stack = [name])
    (hrest : Bars.isIntervalAhead (d.rest.map (·.symbol)) = true) :
    d.decision Rule.tables (s.semantics stop) = .shift q := by
  rw [decision_of_ambiguous (by rw [hstate, hnext, hl]), hnext, hstack]
  refine (Bars.choose_identifier hk _ _).trans ?_
  rw [hrest]
  rfl

/-- Behind the name of a set and a bar, the parser is about to read the interval. -/
theorem exists_inDomain {n q : Nat} (hq : Domain.Charted Rule.tables n q) {name bar : Token}
    (hname : name.symbol = .identifier) (hbar : bar.symbol = .bar) {words words' : List Token}
    (hwords : List.Forall₂ Token.SameReading words words') (position position' : Position)
    (hinterval : Bars.isIntervalAhead (words.map (·.symbol) ++ [.finish]) = true) (names : List String)
    (stop stop' : Position) :
    ∃ d, Leads Rule.tables (s.semantics stop') 2
        (Config.start (s.semantics stop') Goal.equation.index (name :: bar :: (words' ++ [.finish position'])) names) d ∧
      InDomain q [n, 0] [bar, name]
        (Config.start (s.semantics stop) Goal.equation.index (words ++ [.finish position]) names) d := by
  obtain ⟨k, hl, hk⟩ := hq.bar
  have hmemo : ∀ stop input, (Config.start (s.semantics stop) Goal.equation.index input names).memo = names := by
    intro stop input
    cases input <;> rfl
  -- the name
  generalize hstart : Config.start (s.semantics stop') Goal.equation.index
    (name :: bar :: (words' ++ [.finish position'])) names = start
  have hstates : start.states = [0] := by rw [← hstart, Config.start_states]; rfl
  have hstack : start.stack = [] := by rw [← hstart, Config.start_stack]
  obtain ⟨hnext, hrest⟩ := List.cons.inj (hstart ▸ Config.start_ahead (List.cons_ne_nil _ _) _ _ :
    start.ahead = name :: bar :: (words' ++ [.finish position']))
  have hd : start.decision Rule.tables (s.semantics stop') = .shift n := by
    refine decision_of_lookup ?_ (by simp)
    rw [Config.state, hstates, hnext, hname]
    exact hq.name
  obtain ⟨behindName, hstep, hshift, hmemo'⟩ := exists_shifts hd (by rw [hrest]; simp)
  -- the bar
  obtain ⟨hnext', hrest'⟩ := List.cons.inj (hshift.ahead.trans hrest)
  have hd' : behindName.decision Rule.tables (s.semantics stop') = .shift q := by
    refine decision_bar hl hk ?_ (by rw [hnext', hbar]) (by rw [hshift.stack, hstack]) ?_
    · rw [Config.state, hshift.states, List.headD_cons]
    · rw [hrest', List.map_append, ← map_symbol_of_forall₂ (fun _ _ h => h.symbol) hwords]
      exact hinterval
  obtain ⟨d, hstep', hshift', hmemo''⟩ := exists_shifts hd' (by rw [hrest']; simp)
  refine ⟨d, .go hstep (.go hstep' (.refl d)), ⟨[q], ?_, ?_⟩, ⟨[], ?_, ?_⟩, ?_, ?_, ?_⟩
  · rw [row, Config.start_stack, Config.start_states]
    exact .start
  · rw [hshift'.states, hshift.states, hstates]
    rfl
  · rw [Config.start_stack]
    exact .nil
  · rw [hshift'.stack, hnext', hshift.stack, hnext, hstack]
    rfl
  · rw [hshift'.ahead, hrest', Config.start_ahead (by simp)]
    exact List.rel_append hwords (.cons ⟨rfl, fun _ => rfl⟩ .nil)
  · rw [Config.start_ahead (by simp), List.getLast?_append, List.getLast?_singleton]
    rfl
  · rw [hmemo'', hmemo', ← hstart, hmemo, hmemo]

/-- Where an interval is complete, what was read is an interval. -/
theorem isIntervalAhead_of_replaces {words : List Token} (hwords : ∀ t ∈ words, t.symbol ≠ .finish)
    {position : Position} {goal : Goal} {names : List String} {n : Nat}
    (hmoves : Moves Rule.grammar (s.semantics stop) n
      (Config.start (s.semantics stop) goal.index (words ++ [.finish position]) names) c)
    {f : Rule.Form} {phrase : List Token} (hr : s.Replaces stop f phrase [] c c') (hlhs : f.lhs = .interval)
    (hnext : c.next.symbol = .finish) : Bars.isIntervalAhead (words.map (·.symbol) ++ [.finish]) = true := by
  obtain ⟨-, numbers, read, hreads, -⟩ := moves_of_leads hmoves.leads
  have hright := hreads.rightmost [] (by simp)
  have hrow : (c.stack.map (s.semantics stop).symbol).reverse = f.rhs.map Symbol.index := by
    rw [hr.stack, List.append_nil, List.map_reverse, List.reverse_reverse, ← hr.symbols, List.map_map]
    rfl
  rw [List.append_nil, List.append_nil, hrow] at hright
  have hfinish : Symbol.finish.index ∉ read.map (·.symbol.index) := fun hm => by
    have hmem : ⟨f.lhs.index, f.rhs.map Symbol.index, f.prec⟩ ∈ Rule.grammar.productions := List.mem_map_of_mem hr.mem
    exact Rule.finish_not_mem _ hmem (hright.mem_of_mem Rule.finish_not_mem hm)
  obtain rfl := read_eq_words hwords hreads hnext hfinish
  refine Bars.isIntervalAhead_of_yields hr.mem hlhs ?_
  rw [List.map_map]
  exact hright.derives.yields hreads.terminal

/-- What becomes of the name of a set, a bar and an interval. -/
theorem build_setInterval (s : Setting) (name bar : Token) {t : Token} {e : Expr} (ht : t.payload = .expr e)
    (below : Option Symbol) (names : List String) :
    s.build ⟨[name, bar, t], below⟩ .setInterval names =
      (match NumberSet.ofName? name.lexeme with
      | some set => .ok (.expr (.setInterval set e))
      | none => .error (.invalidDomain name.lexeme), names) := by
  unfold build
  rw [Phrase.lexeme_eq rfl, pure_bind]
  cases NumberSet.ofName? name.lexeme with
  | none => rfl
  | some set =>
    dsimp only
    rw [Phrase.expr_eq (i := 2) rfl ht]
    rfl

/-- The interval is complete behind the name of a set and the bar. -/
structure Completed (n q : Nat) (name bar : Token) (e : Expr) (d : Config Token (List String)) : Prop where
  states : ∃ r, d.states = [r, q, n, 0] ∧ Rule.tables.lookup q Symbol.interval.index = .goto r
  stack : ∃ u, d.stack = [u, bar, name] ∧ u.symbol = .interval ∧ u.payload = .expr e
  next : d.next.symbol = .finish

/-- Behind a name and a bar the interval is complete when it is alone, with the same variables. -/
theorem exists_completed {n q : Nat} (hq : Domain.Charted Rule.tables n q) {name bar : Token}
    (hname : name.symbol = .identifier) (hbar : bar.symbol = .bar) {words words' : List Token}
    (hwords : ∀ t ∈ words, t.payload = .nothing ∧ t.symbol ≠ .finish)
    (hsame : List.Forall₂ Token.SameReading words words') {position : Position} (position' : Position)
    {names : List String} {token : Token} {left right : Char} {a b : Expr}
    (hrun : (s.run .equation (words ++ [.finish position]) names).result = .ok token)
    (hpayload : token.payload = .expr (.interval left a b right)) (stop' : Position) :
    ∃ k d, Leads Rule.tables (s.semantics stop') k
        (Config.start (s.semantics stop') Goal.equation.index (name :: bar :: (words' ++ [.finish position'])) names) d ∧
      Completed n q name bar (.interval left a b right) d ∧ k < 8 * ((words ++ [Token.finish position]).length + 2) + 1 ∧
      d.memo = (s.run .equation (words ++ [.finish position]) names).memo := by
  obtain ⟨k, x, c, f, phrase, span, hk, hx, hstep, hr, hfinish, hstack, hlhs, hmemo⟩ :=
    exists_interval (fun t ht => (hwords t ht).1) hrun hpayload
  have hinterval := isIntervalAhead_of_replaces (fun t ht => (hwords t ht).2) hx hr hlhs hfinish
  -- up to the last bracket
  obtain ⟨d, hd, hdomain⟩ := exists_inDomain hq hname hbar hsame position position' hinterval names
    (stopOf (words ++ [.finish position])) stop'
  have hbelow : [bar, name].map (·.symbol) = [.bar, .identifier] := by simp [hname, hbar]
  have hlive : leaves (row x) = false := by
    have hall : ∀ f ∈ Rule.table, f.lhs = .interval → leaves f.rhs.reverse = false := by decide
    rw [row, hr.stack, List.append_nil, List.map_reverse, hr.symbols]
    exact hall f hr.mem hlhs
  obtain ⟨x', hx', hdomain'⟩ := hdomain.leads stop' hq hbelow rfl hx hlive
  -- the interval
  obtain ⟨r, -, hgoto, -⟩ := hq.ends
  obtain ⟨c', hstep', hdomain''⟩ := hdomain'.replaces stop' hq hbelow rfl hr hlive fun hp _ => by
    cases hp
    exact ⟨r, hlhs ▸ hgoto⟩
  obtain ⟨upper, hpaired, hstates⟩ := hdomain''.states
  obtain ⟨above, hmatches, hstack'⟩ := hdomain''.stack
  have hrow : row c = [.interval] := by rw [row, hstack]; rfl
  rw [hstack] at hmatches
  obtain ⟨u, _, hu, hnil, rfl⟩ := List.forall₂_cons_left_iff.mp hmatches
  cases hnil
  rw [hrow] at hpaired
  generalize c.states = states at hpaired
  have hnext : c.next.symbol = .finish := by rw [(List.cons.inj hr.ahead).1, hfinish]
  refine ⟨_, c', hd.trans (hx'.trans (.go hstep' (.refl c'))), ⟨⟨r, ?_, hgoto⟩, ⟨u, hstack', hu.symbol.symm, ?_⟩, ?_⟩,
    by omega, hdomain''.memo.trans hmemo.symm⟩
  · cases hpaired with
    | push hstart _ hb' =>
      cases hstart
      obtain rfl := Option.some.inj (hb'.symm.trans (Interior.behind?_of_goto hgoto))
      exact hstates
  · exact (hu.payload rfl).symm
  · rw [← hdomain''.next.symbol, hnext]

/-- What becomes of the tokens of an interval behind a name and a bar. -/
theorem parseTokens_setPrefix {name bar : Token} (hname : name.symbol = .identifier) (hbar : bar.symbol = .bar)
    {words words' : List Token} (hwords : ∀ t ∈ words, t.payload = .nothing ∧ t.symbol ≠ .finish)
    (hsame : List.Forall₂ Token.SameReading words words') {position position' : Position} {names met : List String}
    {left right : Char} {a b : Expr}
    (h : s.parseTokens .equation (words ++ [.finish position]) names = ⟨.ok (.interval left a b right), met⟩) :
    s.parseTokens .equation (name :: bar :: (words' ++ [.finish position'])) names =
      ⟨match NumberSet.ofName? name.lexeme with
        | some set => .ok (.setInterval set (.interval left a b right))
        | none => .error (.invalidDomain name.lexeme), met⟩ := by
  obtain ⟨token, raw, hrun, hraw, hclassify⟩ := parseTokens_eq_ok.mp (congrArg Parsed.result h)
  have hmet : (s.run .equation (words ++ [.finish position]) names).memo = met := by
    unfold parseTokens at h
    exact (Parsed.mk.inj h).2
  obtain rfl : raw = .interval left a b right := by
    unfold Expr.classify at hclassify
    split at hclassify
    · split at hclassify <;> cases hclassify
    · exact hclassify.symm
  obtain ⟨n, q, hq⟩ := Domain.exists_charted
  generalize hinput : name :: bar :: (words' ++ [Token.finish position']) = input
  obtain ⟨k, d, hd, hcompleted, hk, hmemo⟩ := exists_completed hq hname hbar hwords hsame position' hrun hraw (stopOf input)
  rw [hinput] at hd
  rw [hmet] at hmemo
  have hlength : input.length = (words ++ [Token.finish position]).length + 2 := by
    simp [← hinput, hsame.length_eq]
  obtain ⟨r, hstates, hr⟩ := hcompleted.states
  obtain ⟨u, hstack, hu, hpayload⟩ := hcompleted.stack
  obtain ⟨r', e, hr', hreduce, he, haccept⟩ := hq.ends
  obtain rfl := Action.goto.inj (hr.symm.trans hr')
  -- the name of the set, the bar and the interval
  have hdecision : d.decision Rule.tables (s.semantics (stopOf input)) = .reduce Rule.setInterval.index := by
    refine decision_of_lookup ?_ (by simp)
    rw [Config.state, hstates, hcompleted.next]
    exact hreduce
  have hform : ⟨.setInterval, .equation, [.identifier, .bar, .interval], none⟩ ∈ Rule.table := by decide
  have hphrase : d.stack = [name, bar, u].reverse ++ [] := hstack
  have hsymbols : [name, bar, u].map (·.symbol) = [.identifier, .bar, .interval] := by simp [hname, hbar, hu]
  have hbuild := s.build_setInterval name bar hpayload none d.memo
  unfold parseTokens
  cases hset : NumberSet.ofName? name.lexeme with
  | none =>
    rw [hset] at hbuild
    obtain ⟨stats, hstop⟩ := step_refuse hform hdecision hphrase hsymbols hbuild
    rw [run_eq_of_leads hd hstop (by omega), hmemo]
    rfl
  | some set =>
    rw [hset] at hbuild
    have hsplit : d.states = [r, q, n] ++ 0 :: [] := hstates
    obtain ⟨d', span, hstep, hstates', hstack', hahead, hmemo'⟩ := step_replace hform hdecision hphrase hsymbols hbuild
      hsplit rfl rfl he
    have hdecision' : d'.decision Rule.tables (s.semantics (stopOf input)) = .accept := by
      refine decision_of_lookup ?_ (by simp)
      rw [Config.state, hstates', (List.cons.inj hahead).1, hcompleted.next]
      exact haccept
    obtain ⟨stats, hstop⟩ := step_accept hdecision' hstack'
    rw [run_eq_of_leads (hd.trans (.go hstep (.refl d'))) hstop (by omega), hmemo', hmemo]
    rfl

/-! ## Texts -/

/-- Tokens that are written alike are read the same. -/
theorem sameReading_of_written {ts ts' : List Token} (h : ts'.map Token.written = ts.map Token.written) :
    List.Forall₂ Token.SameReading ts ts' := by
  induction ts generalizing ts' with
  | nil =>
    rw [List.map_eq_nil_iff.mp h]
    exact .nil
  | cons t ts ih =>
    obtain ⟨t', ts', rfl, ht, hrest⟩ := List.map_eq_cons_iff.mp h
    obtain ⟨hsymbol, hlexeme⟩ := Lexeme.mk.inj ht
    exact .cons ⟨hsymbol.symm, fun _ => hlexeme.symm⟩ (ih hrest)

/-- The name of a set and a bar in front of an interval leave the interval as it is. If a text is read as an interval,
then the text with a name and a bar in front of it is read as the part of the set in that interval, or refused if the
name is not that of a set, and the variables are those of the interval alone. -/
theorem parse_setInterval (s : Setting) {name text : String} (hname : IsWord name)
    (htext : (tokenize text).failure = none) {names met : List String} {left right : Char} {a b : Expr}
    (h : s.parseTokens .equation (tokenize text).tokens names = ⟨.ok (.interval left a b right), met⟩) :
    (tokenize (name ++ "|" ++ text)).failure = none ∧
      s.parseTokens .equation (tokenize (name ++ "|" ++ text)).tokens names =
        ⟨match NumberSet.ofName? name with
          | some set => .ok (.setInterval set (.interval left a b right))
          | none => .error (.invalidDomain name), met⟩ := by
  have hbar : Lexer.isAlone '|' = true := by decide
  obtain ⟨ls, hls⟩ := Lexer.exists_scanned (Nat.le_refl _) htext
  have hword : Lexer.Scanned name.toList [⟨.identifier, name⟩] := by
    refine Lexer.scanned_of_spelled ?_ hname.orderly.legal hname.orderly.apart
    simpa using spelled_flatMap [⟨.identifier, name⟩]
  have hmiddle : Lexer.Scanned ['|'] [⟨.bar, "|"⟩] := by
    have hpiece : Lexer.piece? ['|'] = some (1, .token .bar) := by decide +kernel
    exact Lexer.Scanned.piece (List.cons_ne_nil _ _) hpiece .done
  have hlexemes : Lexer.Scanned (name ++ "|" ++ text).toList (⟨.identifier, name⟩ :: ⟨.bar, "|"⟩ :: ls) := by
    rw [String.toList_append, String.toList_append, List.append_assoc]
    refine (Lexer.scanned_append_iff (Lexer.seam_of_isAlone hbar _ _)).mpr ⟨[_], _, rfl, hword, ?_⟩
    exact (Lexer.scanned_append_iff (Lexer.seam_singleton_of_isAlone hbar _)).mpr ⟨[_], ls, rfl, hmiddle, hls⟩
  obtain ⟨words, stop, htokens, rfl, hwords⟩ := exists_words hls
  obtain ⟨words', stop', htokens', hwritten, -⟩ := exists_words hlexemes
  obtain ⟨t, ts, rfl, ht, hts⟩ := List.map_eq_cons_iff.mp hwritten
  obtain ⟨u, us, rfl, hu, hus⟩ := List.map_eq_cons_iff.mp hts
  obtain ⟨hsymbol, rfl⟩ := Lexeme.mk.inj ht
  rw [htokens] at h
  rw [htokens']
  exact ⟨rfl, parseTokens_setPrefix hsymbol (Lexeme.mk.inj hu).1 hwords (sameReading_of_written hus) h⟩

/-- Bars and brackets in an interval. -/
theorem bars_in_interval :
    let s : Setting := {}
    (tokenize "[|x|,|(y)|)").failure = none ∧
      (match s.parseTokens .equation (tokenize "[|x|,|(y)|)").tokens [] with
      | ⟨.ok (.interval ..), _⟩ => true
      | _ => false) = true := by
  decide +kernel

/-- The interval behind the name of a set, and behind a name that is none. -/
theorem parse_setInterval_bars :
    let s : Setting := {}
    let parse := fun text => s.parseTokens .equation (tokenize text).tokens []
    ∃ left a b right met, parse "[|x|,|(y)|)" = ⟨.ok (.interval left a b right), met⟩ ∧
      parse "Real|[|x|,|(y)|)" = ⟨.ok (.setInterval .reals (.interval left a b right)), met⟩ ∧
      parse "foo|[|x|,|(y)|)" = ⟨.error (.invalidDomain "foo"), met⟩ := by
  intro s parse
  obtain ⟨hfailure, hinterval⟩ := bars_in_interval
  have hsets : NumberSet.ofName? "Real" = some .reals ∧ NumberSet.ofName? "foo" = none := by decide
  have htexts : "Real" ++ "|" ++ "[|x|,|(y)|)" = "Real|[|x|,|(y)|)" ∧
      "foo" ++ "|" ++ "[|x|,|(y)|)" = "foo|[|x|,|(y)|)" := by
    decide
  generalize hparsed : Setting.parseTokens _ .equation (tokenize "[|x|,|(y)|)").tokens [] = parsed at hinterval
  split at hinterval
  · rename_i left a b right met
    have hreals := (s.parse_setInterval (by decide : IsWord "Real") hfailure hparsed).2
    have hfoo := (s.parse_setInterval (by decide : IsWord "foo") hfailure hparsed).2
    rw [hsets.1, htexts.1] at hreals
    rw [hsets.2, htexts.2] at hfoo
    exact ⟨left, a, b, right, met, hparsed, hreals, hfoo⟩
  · cases hinterval

end Setting

end Formula
