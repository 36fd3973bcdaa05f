import Formula.Proofs.Expr.Invariant
import Formula.Proofs.LR.Safety

/-!
# Turns of the notation parser, one by one

What a turn decides depends on the state, on the symbols of the next token and of the stack, and on whether the input
behind the next token is an interval (`decision_congr`). A decision to shift, or to reduce by a rule that can make
something of the phrase, is carried out (`exists_shifts`, `step_replace`), and nothing else leads to another turn
(`shifts_or_replaces`). Turns that lead to acceptance make up a run (`run_of_leads`): every right-hand side weighs more
than its left-hand side, so that the fuel lasts.
-/

namespace Formula

open LR (Action Config Leads)
open Text (Position Span)

namespace Bars

/-- Of the input behind a bar only counts whether it is an interval. -/
theorem choose_congr (t : LR.Tables) (number : Nat) (next : Symbol) (stack : List Symbol) {input input' : List Symbol}
    (h : isIntervalAhead input = isIntervalAhead input') :
    choose t number next stack input = choose t number next stack input' := by
  unfold choose shifts
  rw [h]

end Bars

namespace Symbol

/-- Weights by which every right-hand side is heavier than its left-hand side. -/
def weight : Symbol → Nat
  | .number | .identifier => 4
  | .unary | .group | .bound => 3
  | .expression | .interval => 2
  | .start | .definitionStart => 0
  | _ => 1

theorem weight_le (x : Symbol) : x.weight ≤ 4 := by
  cases x <;> decide

/-- The weight of the symbol with a number. -/
def weightAt (x : Nat) : Nat := (all[x]?.map weight).getD 0

theorem weightAt_le (x : Nat) : weightAt x ≤ 4 := by
  rw [weightAt]
  cases all[x]? with
  | none => exact Nat.zero_le 4
  | some y => exact y.weight_le

end Symbol

namespace Rule

theorem weightAt_lt : ∀ p ∈ grammar.productions, Symbol.weightAt p.lhs < (p.rhs.map Symbol.weightAt).sum := by
  decide

theorem finish_not_mem : ∀ p ∈ grammar.productions, Symbol.finish.index ∉ p.rhs := by
  decide

end Rule

/-- Rows of tokens with the same symbols one by one have the same row of symbols. -/
theorem map_symbol_of_forall₂ {V : Token → Token → Prop} (hV : ∀ t t', V t t' → t.symbol = t'.symbol)
    {l l' : List Token} (h : List.Forall₂ V l l') : l.map (·.symbol) = l'.map (·.symbol) := by
  induction h with
  | nil => rfl
  | cons h _ ih => rw [List.map_cons, List.map_cons, hV _ _ h, ih]

namespace Setting

variable {s : Setting} {stop stop' : Position} {c d : Config Token (List String)}

/-! ## Decisions -/

/-- Choices are always settled, so that a turn carries out its decision. -/
theorem step_eq_act (s : Setting) (stop : Position) (c : Config Token (List String)) :
    ∃ stats, c.step Rule.tables (s.semantics stop) =
      ({ c with stats } : Config Token (List String)).act Rule.tables (s.semantics stop)
        (c.decision Rule.tables (s.semantics stop)) :=
  Config.step_eq_act (fun _ _ _ _ _ => ⟨_, rfl⟩) _ c

/-- What a turn decides depends on symbols only. -/
theorem decision_congr (hstate : c.state = d.state) (hnext : c.next.symbol = d.next.symbol)
    (hstack : c.stack.map (·.symbol) = d.stack.map (·.symbol))
    (hrest : Bars.isIntervalAhead (c.rest.map (·.symbol)) = Bars.isIntervalAhead (d.rest.map (·.symbol))) :
    c.decision Rule.tables (s.semantics stop) = d.decision Rule.tables (s.semantics stop') := by
  refine Config.decision_congr hstate (congrArg Symbol.index hnext) fun number => ⟨_, _, d.memo, rfl, ?_⟩
  show (Except.ok (Bars.choose Rule.tables number d.next.symbol (d.stack.map (·.symbol)) (d.rest.map (·.symbol))),
    d.memo) = _
  rw [← hnext, ← hstack, ← Bars.choose_congr _ _ _ _ hrest]

theorem decision_of_lookup {a : Action} (h : Rule.tables.lookup c.state c.next.symbol.index = a)
    (ha : ∀ k, a ≠ .ambiguous k) : c.decision Rule.tables (s.semantics stop) = a :=
  Config.decision_of_lookup h ha

/-- An open choice is settled by the rules for bars. -/
theorem decision_of_ambiguous {k : Nat} (h : Rule.tables.lookup c.state c.next.symbol.index = .ambiguous k) :
    c.decision Rule.tables (s.semantics stop) =
      Bars.choose Rule.tables k c.next.symbol (c.stack.map (·.symbol)) (c.rest.map (·.symbol)) :=
  Config.decision_of_ambiguous h rfl

/-! ## Carrying them out -/

/-- A shift is carried out. -/
theorem exists_shifts {n : Nat} (hd : d.decision Rule.tables (s.semantics stop) = .shift n) (hrest : d.rest ≠ []) :
    ∃ d', d.step Rule.tables (s.semantics stop) = .go d' ∧ d.Shifts Rule.tables (s.semantics stop) n d' ∧
      d'.memo = d.memo := by
  obtain ⟨stats, hstep⟩ := step_eq_act s stop d
  rw [hd] at hstep
  exact ⟨_, hstep, ⟨hd, Config.shift_states _ n, Config.shift_stack _ n,
    Config.shift_ahead (c := { d with stats }) hrest n⟩, Config.shift_memo _ n⟩

theorem step_shift {n : Nat} (hd : d.decision Rule.tables (s.semantics stop) = .shift n) (hrest : d.rest ≠ []) :
    ∃ d', d.step Rule.tables (s.semantics stop) = .go d' ∧ d'.states = n :: d.states ∧ d'.stack = d.next :: d.stack ∧
      d'.next :: d'.rest = d.rest := by
  obtain ⟨d', hstep, hshift, -⟩ := exists_shifts hd hrest
  exact ⟨d', hstep, hshift.states, hshift.stack, hshift.ahead⟩

/-- The one token on the stack is accepted. -/
theorem step_accept {token : Token} (hd : d.decision Rule.tables (s.semantics stop) = .accept)
    (hstack : d.stack = [token]) :
    ∃ stats, d.step Rule.tables (s.semantics stop) = .stop ⟨.ok token, stats, d.memo⟩ := by
  obtain ⟨stats, hstep⟩ := step_eq_act s stop d
  rw [hd] at hstep
  refine ⟨stats, hstep.trans ?_⟩
  simp only [Config.act, Config.accept, hstack]

/-- A reduction by what a rule builds is carried out. -/
theorem step_replace {f : Rule.Form} (hf : f ∈ Rule.table)
    (hd : d.decision Rule.tables (s.semantics stop) = .reduce f.rule.index) {phrase below : List Token}
    (hstack : d.stack = phrase.reverse ++ below) (hphrase : phrase.map (·.symbol) = f.rhs) {payload : Payload}
    {names : List String}
    (hbuild : s.build ⟨phrase, below.head?.map (·.symbol)⟩ f.rule d.memo = (.ok payload, names))
    {above states : List Nat} {bottom n : Nat} (hstates : d.states = above ++ bottom :: states)
    (habove : above.length = f.rhs.length) (hlength : states.length = below.length)
    (hgoto : Rule.tables.lookup bottom f.lhs.index = .goto n) :
    ∃ d' span, d.step Rule.tables (s.semantics stop) = .go d' ∧ d'.states = n :: bottom :: states ∧
      d'.stack = ⟨f.lhs, "", span, payload⟩ :: below ∧ d'.ahead = d.ahead ∧ d'.memo = names := by
  obtain ⟨stats, hstep⟩ := step_eq_act s stop d
  have hform : Rule.form? f.rule.index = some ⟨f.rule, f.lhs, f.rhs, f.prec⟩ := Rule.form?_of_mem hf
  have hlen : (f.rhs.map Symbol.index).length = f.rhs.length := List.length_map _
  have hphraseLength : phrase.length = f.rhs.length := by rw [← hphrase, List.length_map]
  have hdrop : d.states.drop (f.rhs.map Symbol.index).length = bottom :: states := by
    rw [hstates, hlen]
    exact List.drop_left' habove
  have hbelow : d.stack.drop (f.rhs.map Symbol.index).length = below := by
    rw [hstack, hlen]
    exact List.drop_left' (by rw [List.length_reverse, hphraseLength])
  have hreduce : (s.semantics stop).reduce f.rule.index d.next d.stack d.memo =
      (.ok (⟨f.lhs, "", Phrase.span ⟨phrase, below.head?.map (·.symbol)⟩ ⟨stop, stop⟩, payload⟩ ::
        d.stack.drop (f.rhs.map Symbol.index).length), names) := by
    rw [hbelow, hstack]
    exact reduce_eq hform hphraseLength hbuild ⟨stop, stop⟩
  have hact := Config.act_reduce (c := ({ d with stats } : Config Token (List String))) (production_eq hform) hreduce
    (by rw [hdrop, hbelow]; exact congrArg (· + 1) hlength) (by rw [hdrop]; exact hgoto)
  rw [hdrop, hbelow] at hact
  rw [hd] at hstep
  exact ⟨_, _, hstep.trans hact, rfl, rfl, rfl, rfl⟩

/-- A reduction by what a rule makes is carried out. -/
theorem exists_step_reduce {f : Rule.Form} (hf : f ∈ Rule.table)
    (hd : d.decision Rule.tables (s.semantics stop) = .reduce f.rule.index) {phrase below : List Token}
    (hstack : d.stack = phrase.reverse ++ below) (hphrase : phrase.map (·.symbol) = f.rhs) {payload : Payload}
    (hm : s.Makes ⟨phrase, below.head?.map (·.symbol)⟩ f.rule payload) {above states : List Nat} {bottom n : Nat}
    (hstates : d.states = above ++ bottom :: states) (habove : above.length = f.rhs.length)
    (hlength : states.length = below.length) (hgoto : Rule.tables.lookup bottom f.lhs.index = .goto n) :
    ∃ d' token, d.step Rule.tables (s.semantics stop) = .go d' ∧ d'.states = n :: bottom :: states ∧
      d'.stack = token :: below ∧ token.symbol = f.lhs ∧ token.lexeme = "" ∧ token.payload = payload ∧
      d'.next = d.next ∧ d'.rest = d.rest := by
  obtain ⟨names, hbuild⟩ := hm.builds d.memo
  obtain ⟨d', span, hstep, hstates', hstack', hahead, -⟩ := step_replace hf hd hstack hphrase hbuild hstates habove
    hlength hgoto
  obtain ⟨hnext, hrest⟩ := List.cons.inj hahead
  exact ⟨d', _, hstep, hstates', hstack', rfl, rfl, rfl, hnext, hrest⟩

/-- A rule that refuses its phrase ends the run. -/
theorem step_refuse {f : Rule.Form} (hf : f ∈ Rule.table)
    (hd : d.decision Rule.tables (s.semantics stop) = .reduce f.rule.index) {phrase below : List Token}
    (hstack : d.stack = phrase.reverse ++ below) (hphrase : phrase.map (·.symbol) = f.rhs) {error : Error}
    {names : List String}
    (hbuild : s.build ⟨phrase, below.head?.map (·.symbol)⟩ f.rule d.memo = (.error error, names)) :
    ∃ stats, d.step Rule.tables (s.semantics stop) = .stop ⟨.error error, stats, names⟩ := by
  obtain ⟨stats, hstep⟩ := step_eq_act s stop d
  have hreduce : (s.semantics stop).reduce f.rule.index d.next d.stack d.memo = (.error error, names) := by
    rw [hstack]
    exact reduce_eq_error (Rule.form?_of_mem hf) (by rw [← hphrase, List.length_map]) hbuild ⟨stop, stop⟩
  rw [hd] at hstep
  refine ⟨stats, hstep.trans ?_⟩
  rw [Config.act, Config.reduce]
  dsimp only
  rw [hreduce]
  rfl

/-- The one parser puts what a rule builds in the place of its phrase, and becomes the other. -/
structure Replaces (s : Setting) (stop : Position) (f : Rule.Form) (phrase below : List Token)
    (c c' : Config Token (List String)) : Prop where
  mem : f ∈ Rule.table
  decision : c.decision Rule.tables (s.semantics stop) = .reduce f.rule.index
  stack : c.stack = phrase.reverse ++ below
  symbols : phrase.map (·.symbol) = f.rhs
  states : ∃ above bottom states n, c.states = above ++ bottom :: states ∧ above.length = f.rhs.length ∧
    states.length = below.length ∧ Rule.tables.lookup bottom f.lhs.index = .goto n ∧ c'.states = n :: bottom :: states
  built : ∃ payload span, s.build ⟨phrase, below.head?.map (·.symbol)⟩ f.rule c.memo = (.ok payload, c'.memo) ∧
    c'.stack = ⟨f.lhs, "", span, payload⟩ :: below
  ahead : c'.ahead = c.ahead

/-- What is related to a stack with a phrase on top is one. -/
theorem forall₂_reverse_append {V : Token → Token → Prop} {phrase below ts : List Token}
    (h : List.Forall₂ V (phrase.reverse ++ below) ts) :
    ∃ phrase' below', ts = phrase'.reverse ++ below' ∧ List.Forall₂ V phrase phrase' ∧ List.Forall₂ V below below' := by
  refine ⟨(ts.take phrase.length).reverse, ts.drop phrase.length, ?_, ?_, ?_⟩
  · rw [List.reverse_reverse, List.take_append_drop]
  · have := List.forall₂_take phrase.length h
    rw [List.take_left' List.length_reverse] at this
    rwa [← List.forall₂_reverse_iff, List.reverse_reverse]
  · have := List.forall₂_drop phrase.length h
    rwa [List.drop_left' List.length_reverse] at this

/-- A turn that leads to another shifts a token or reduces by a rule. -/
theorem shifts_or_replaces (hstep : c.step Rule.tables (s.semantics stop) = .go d)
    (hm : LR.Move Rule.grammar (s.semantics stop) c d)
    (hrest : ∀ n, c.decision Rule.tables (s.semantics stop) = .shift n → c.rest ≠ []) :
    (c.next.symbol.isTerminal = true ∧ ∃ n, c.Shifts Rule.tables (s.semantics stop) n d ∧ d.memo = c.memo) ∨
      ∃ f phrase below, s.Replaces stop f phrase below c d := by
  cases hm with
  | @shift n _ _ hd hterminal _ =>
    obtain ⟨d', hstep', hshift, hmemo⟩ := exists_shifts hd (hrest n hd)
    obtain rfl := LR.Turn.go.inj (hstep.symm.trans hstep')
    exact .inl ⟨decide_eq_true hterminal, n, hshift, hmemo⟩
  | @reduce number n bottom p phrase below above states token stats memo memo' hd hp hstack hphrase hstates habove hlength
      _ _ hgoto hd' =>
    -- what was built is read off the turn, which knows the names that were met before
    have hd : c.decision Rule.tables (s.semantics stop) = .reduce number := hd
    obtain ⟨stats', hact⟩ := step_eq_act s stop c
    rw [hstep, hd] at hact
    obtain ⟨_, haction, -⟩ | ⟨_, _, stack, _, _, _, _, names, haction, -, hreduce, -, -, rfl⟩ :=
      Config.act_eq_go hact.symm
    · cases haction
    obtain rfl := Action.reduce.inj haction
    obtain ⟨f, hf, hle, payload, hbuild, hstack'⟩ := reduce_eq_ok hreduce
    obtain ⟨g, hg, rfl⟩ := Rule.exists_form hp
    obtain rfl := Option.some.inj (hf.symm.trans hg)
    have hsymbols : phrase.map (·.symbol) = f.rhs := by
      refine Symbol.map_index_injective ?_
      rw [List.map_map]
      exact hphrase
    have hlen : phrase.reverse.length = f.rhs.length := by rw [List.length_reverse, ← hsymbols, List.length_map]
    rw [hstack, List.take_left' hlen, List.reverse_reverse, List.getElem?_append_right (Nat.le_of_eq hlen), hlen,
      Nat.sub_self, ← List.head?_eq_getElem?] at hbuild hstack'
    rw [List.drop_left' hlen] at hstack'
    rw [List.length_map] at habove
    injection hd' with hstates' hstack'' hnext hrest' _ hmemo
    refine .inr ⟨f, phrase, below, List.mem_of_getElem? hf, ?_, hstack, hsymbols, ⟨above, bottom, states, n, hstates,
      habove, hlength, hgoto, hstates'⟩, ⟨payload, _, hbuild, hstack'⟩, rfl⟩
    rw [hd, Rule.eq_index_of_form? hf]

/-! ## Fuel -/

/-- A derivation of a row of tokens is no longer than four times the row. -/
theorem length_le_of_rightmost {row : List Nat} {numbers : List Nat} {read : List Token}
    (h : Rule.grammar.Rightmost row numbers (read.map (·.symbol.index))) : numbers.length ≤ 4 * read.length := by
  have := h.length_le_mul Rule.weightAt_lt Symbol.weightAt_le
  rwa [List.length_map] at this

/-- If the end of the text is not read, no more than the words are read. -/
theorem length_le_of_stream {words read : List Token} {position : Position}
    (hread : read = (List.range read.length).map ((s.semantics stop).stream (words ++ [.finish position])))
    (hfinish : Symbol.finish.index ∉ read.map (·.symbol.index)) : read.length ≤ words.length := by
  by_contra hlt
  refine hfinish (List.mem_map.mpr ⟨.finish position, ?_, rfl⟩)
  rw [hread]
  refine List.mem_map.mpr ⟨words.length, List.mem_range.mpr (by omega), ?_⟩
  rw [LR.Semantics.stream, List.getElem?_append_right (Nat.le_refl _), Nat.sub_self]
  rfl

/-- A goal is one of the grammar. -/
theorem goal_lt (goal : Goal) : goal.index < Rule.grammar.goals.length := by
  cases goal <;> decide

/-- What leads on from the start of a text is a row of moves, each for a token that is shifted or for a rule of a
derivation. -/
theorem moves_of_leads {goal : Goal} {input : List Token} {names : List String} {n : Nat}
    (hl : LR.Leads Rule.tables (s.semantics stop) n (Config.start (s.semantics stop) goal.index input names) d) :
    LR.Moves Rule.grammar (s.semantics stop) n (Config.start (s.semantics stop) goal.index input names) d ∧
      ∃ numbers read, LR.Reads Rule.grammar (s.semantics stop) input goal.index numbers read d ∧
        numbers.length + read.length = n :=
  LR.Reads.of_leads Rule.augmented.checked (s.lawful stop) (fun t _ => t.symbol.index_lt) hl

/-- At acceptance what was read is derived from the token on the stack, and the end of the input is not part of it. -/
theorem derivation_of_accept {goal : Goal} {input : List Token} {names : List String} {n : Nat} {token : Token}
    (hl : LR.Leads Rule.tables (s.semantics stop) n (Config.start (s.semantics stop) goal.index input names) d)
    (hd : d.decision Rule.tables (s.semantics stop) = .accept) (hstack : d.stack = [token]) :
    ∃ numbers read, LR.Reads Rule.grammar (s.semantics stop) input goal.index numbers read d ∧
      numbers.length + read.length = n ∧
      Rule.grammar.Rightmost [token.symbol.index] numbers (read.map (·.symbol.index)) ∧
      Symbol.finish.index ∉ read.map (·.symbol.index) := by
  have hgoal := List.getElem?_eq_getElem (goal_lt goal)
  obtain ⟨-, numbers, read, hreads, hcount⟩ := moves_of_leads hl
  obtain ⟨stats, hstep⟩ := step_accept hd hstack
  obtain ⟨-, -, p, hp, hrhs, hright⟩ := hreads.accept Rule.augmented (s.lawful _) (List.getElem_mem (goal_lt goal))
    (Rule.grammar.states_goal Rule.augmented hgoal) d.next.symbol.index_lt hstep rfl
  refine ⟨numbers, read, hreads, hcount, hright, fun hm => ?_⟩
  have := hright.mem_of_mem Rule.finish_not_mem hm
  rw [← hrhs] at this
  exact Rule.finish_not_mem p (List.mem_of_getElem? hp) this

/-- In front of the end of a text all its words are read. -/
theorem read_eq_words {words : List Token} (hwords : ∀ t ∈ words, t.symbol ≠ .finish) {position : Position}
    {bottom : Nat} {numbers : List Nat} {read : List Token}
    (hreads : LR.Reads Rule.grammar (s.semantics stop) (words ++ [.finish position]) bottom numbers read d)
    (hnext : d.next.symbol = .finish) (hfinish : Symbol.finish.index ∉ read.map (·.symbol.index)) : read = words := by
  have hread := hreads.read_eq
  have hplace := hreads.place.1
  have hle := length_le_of_stream hread hfinish
  have hge : words.length ≤ read.length := by
    by_contra hlt
    refine hwords _ (List.getElem_mem (Nat.lt_of_not_le hlt)) ?_
    rw [LR.Semantics.stream, List.getElem?_append_left (Nat.lt_of_not_le hlt),
      List.getElem?_eq_getElem (Nat.lt_of_not_le hlt)] at hplace
    rw [hplace] at hnext
    exact hnext
  rw [hread, Nat.le_antisymm hle hge]
  refine List.ext_getElem (by simp) fun i hi _ => ?_
  rw [List.length_map, List.length_range] at hi
  simp [LR.Semantics.stream, List.getElem?_append_left hi, List.getElem?_eq_getElem hi]

/-- The words of a text that is read are a sentence. -/
theorem exists_derivation {goal : Goal} {words : List Token} (hwords : ∀ t ∈ words, t.symbol ≠ .finish)
    {position : Position} {names : List String} {token : Token}
    (h : (s.run goal (words ++ [.finish position]) names).result = .ok token) :
    ∃ numbers, Rule.grammar.Rightmost [token.symbol.index] numbers (words.map (·.symbol.index)) := by
  obtain ⟨n, d, -, hmoves, hstack, hd, hend, -⟩ := exists_moves h
  obtain ⟨numbers, read, hreads, -, hright, hfinish⟩ := derivation_of_accept hmoves.leads hd hstack
  obtain rfl := read_eq_words hwords hreads hend hfinish
  exact ⟨_, hright⟩

/-- The turn that ends a run in time gives its outcome. -/
theorem run_eq_of_leads {goal : Goal} {tokens : List Token} {names : List String} {n : Nat}
    {o : LR.Outcome Token (List String) Error}
    (hl : LR.Leads Rule.tables (s.semantics (stopOf tokens)) n
      (Config.start (s.semantics (stopOf tokens)) goal.index tokens names) d)
    (hd : d.step Rule.tables (s.semantics (stopOf tokens)) = .stop o) (hn : n < 8 * (tokens.length + 2)) :
    s.run goal tokens names = o := by
  have hstart : Rule.tables.startState? goal.index = some goal.index := by cases goal <;> rfl
  obtain ⟨fuel, hfuel⟩ : ∃ fuel, 8 * (tokens.length + 2) = n + (fuel + 1) :=
    ⟨8 * (tokens.length + 2) - n - 1, by omega⟩
  rw [run, LR.run, hstart, hfuel]
  dsimp only
  rw [hl.turns, LR.turns, hd]

/-- Turns that lead to acceptance make up a run. -/
theorem run_of_leads {goal : Goal} {words : List Token} {position : Position} {names : List String} {n : Nat}
    {token : Token} (hstop : stop = stopOf (words ++ [.finish position]))
    (hl : LR.Leads Rule.tables (s.semantics stop) n
      (Config.start (s.semantics stop) goal.index (words ++ [.finish position]) names) d)
    (hd : d.decision Rule.tables (s.semantics stop) = .accept) (hstack : d.stack = [token]) :
    (s.run goal (words ++ [.finish position]) names).result = .ok token := by
  subst hstop
  obtain ⟨numbers, read, hreads, hcount, hright, hfinish⟩ := derivation_of_accept hl hd hstack
  obtain ⟨stats, hstep⟩ := step_accept hd hstack
  have hlength : read.length ≤ words.length := length_le_of_stream hreads.read_eq hfinish
  have hnumbers := length_le_of_rightmost hright
  have hinput : (words ++ [Token.finish position]).length = words.length + 1 := by rw [List.length_append]; rfl
  rw [run_eq_of_leads hl hstep (by omega)]

end Setting

end Formula
