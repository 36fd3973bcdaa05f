import Formula.Proofs.Expr.Safety
import Formula.Proofs.LR.InStep

/-!
# Behind the end of the input

Tokens behind the end of the input are not read: the end is never shifted, so a parser that has come to it stays there
until it accepts or refuses it. They are not looked at either, with one exception. Behind a leading name and a bar the
parser looks ahead for the bracket that closes an interval, and where the text ends before the bracket does, the search
goes on behind the end (`unclosed_interval_looks_on`).

`Abreast` relates a parser that has more tokens behind the end to one that has not: they are in the same states and in
front of the same token. A turn keeps them abreast or ends both runs alike (`Abreast.step`), whenever the bracket behind
the bar means the same to both. So the outcome is the same (`parseTokens_finish`); it is enough that the bracket is
closed (`Bars.isIntervalAhead_append_finish`).
-/

namespace Formula

open LR (Action Config Leads)
open Text (Position Span)

/-! ## Looking ahead -/

namespace Bars

/-- Whether some bracket closes all that are open. -/
def closes : Nat → List Symbol → Bool
  | _, [] => false
  | depth, s :: rest =>
    if isOpening s then closes (depth + 1) rest
    else if isClosing s then depth ≤ 1 || closes (depth - 1) rest
    else closes depth rest

/-- Where the brackets are closed, nothing behind the end of the input is looked at. -/
theorem closesAtEnd_append_finish {row : List Symbol} (more : List Symbol) {depth : Nat} (comma : Bool)
    (h : closes depth row = true) : closesAtEnd depth comma (row ++ .finish :: more) = closesAtEnd depth comma row := by
  induction row generalizing depth comma with
  | nil => cases h
  | cons x row ih =>
    rw [closes] at h
    rw [List.cons_append, closesAtEnd, closesAtEnd]
    split
    · rename_i hopening
      rw [if_pos hopening] at h
      exact ih _ h
    · rename_i hopening
      rw [if_neg hopening] at h
      split
      · rename_i hclosing
        rw [if_pos hclosing] at h
        split
        · cases row <;> rfl
        · rename_i hdepth
          rw [decide_eq_false hdepth, Bool.false_or] at h
          exact ih _ h
      · rename_i hclosing
        rw [if_neg hclosing] at h
        exact ih _ h

theorem closes_of_closesAtEnd {row : List Symbol} {depth : Nat} {comma : Bool}
    (h : closesAtEnd depth comma row = true) : closes depth row = true := by
  induction row generalizing depth comma with
  | nil => cases h
  | cons x row ih =>
    rw [closesAtEnd] at h
    rw [closes]
    split
    · rename_i hopening
      rw [if_pos hopening] at h
      exact ih h
    · rename_i hopening
      rw [if_neg hopening] at h
      split
      · rename_i hclosing
        rw [if_pos hclosing] at h
        by_cases hdepth : depth ≤ 1
        · rw [decide_eq_true hdepth, Bool.true_or]
        · rw [if_neg hdepth] at h
          rw [ih h, Bool.or_true]
      · rename_i hclosing
        rw [if_neg hclosing] at h
        exact ih h

/-- A row whose leading bracket is closed, if there is one, is an interval no matter what is behind the end. -/
theorem isIntervalAhead_append_finish {row : List Symbol} (more : List Symbol)
    (h : ∀ x rest, row = x :: rest → x = .leftBracket ∨ x = .leftParen → closes 1 rest = true) :
    isIntervalAhead (row ++ .finish :: more) = isIntervalAhead row := by
  cases row with
  | nil => rfl
  | cons x row =>
    rw [List.cons_append, isIntervalAhead, isIntervalAhead]
    by_cases hx : (x == .leftBracket || x == .leftParen) = true
    · have hclosed := h x row rfl (by simpa using hx)
      rw [closesAtEnd_append_finish more false hclosed]
    · rw [Bool.not_eq_true] at hx
      rw [hx, Bool.false_and, Bool.false_and]

/-- An interval is one no matter what is behind the end. -/
theorem isIntervalAhead_append_of_ahead {row : List Symbol} (more : List Symbol) (h : isIntervalAhead row = true) :
    isIntervalAhead (row ++ .finish :: more) = true := by
  rw [isIntervalAhead_append_finish more, h]
  rintro x rest rfl -
  rw [isIntervalAhead, Bool.and_eq_true] at h
  exact closes_of_closesAtEnd h.2

/-- The input counts only behind a lone name in front of a bar. -/
theorem choose_congr_of_name (t : LR.Tables) (number : Nat) (next : Symbol) (stack : List Symbol)
    {input input' : List Symbol}
    (h : ∀ production, (t.choice number).2 = .reduce production →
      (Rule.form? production).any (·.rule == .identifier) = true → stack.length = 1 → next = .bar →
        isIntervalAhead input = isIntervalAhead input') :
    choose t number next stack input = choose t number next stack input' := by
  unfold choose shifts
  cases hc : t.choice number with
  | mk shift side =>
    cases side with
    | reduce production =>
      dsimp only
      by_cases hname : ((Rule.form? production).any (·.rule == .identifier) && stack.length == 1) = true
      · by_cases hbar : next = .bar
        · rw [Bool.and_eq_true, beq_iff_eq] at hname
          rw [h production (by rw [hc]) hname.1 hname.2 hbar]
        · have hnext : (next == .bar) = false := beq_false_of_ne hbar
          rw [hnext, Bool.false_and, Bool.false_and]
      · rw [if_neg hname, if_neg hname]
    | _ => rfl

end Bars

namespace LR

variable {τ σ ε : Type} {s s' : Semantics τ σ ε} {c d : Config τ σ}

/-- Parsers in the same states put them in step with a stack alike. -/
theorem Config.settle_alike (t : Tables) (hfault : ∀ f, s.fault f = s'.fault f) (hstates : c.states = d.states)
    (p : Production) (stack : List τ) :
    (∃ states stats stats', c.settle t s p stack = .go { c with states, stack, stats } ∧
        d.settle t s' p stack = .go { d with states, stack, stats := stats' }) ∨
      ∃ e, c.settle t s p stack = .stop ⟨.error e, c.stats, c.memo⟩ ∧
        d.settle t s' p stack = .stop ⟨.error e, d.stats, d.memo⟩ := by
  unfold settle
  rw [hstates]
  simp only [hfault]
  cases d.states.drop p.rhs.length with
  | nil => exact .inr ⟨_, rfl, rfl⟩
  | cons top below =>
    dsimp only
    split
    · exact .inr ⟨_, rfl, rfl⟩
    · split
      · exact .inl ⟨_, _, _, rfl, rfl⟩
      · exact .inr ⟨_, rfl, rfl⟩

theorem Config.length_shifted? (hdecision : c.decision t s = d.decision t s') :
    (c.shifted? t s).toList.length = (d.shifted? t s').toList.length := by
  unfold shifted?
  rw [hdecision]
  cases d.decision t s' <;> rfl

/-- A row of terminals derives itself only. -/
theorem Grammar.Rightmost.eq_of_terminal {g : Grammar} (hg : g.Checked) {row numbers word : List Nat}
    (h : g.Rightmost row numbers word) (hrow : ∀ a ∈ row, g.IsTerminal a) : word = row := by
  cases h with
  | refl => rfl
  | @step number p before after _ _ hp _ _ =>
    have hlhs := hg.lhs_lt p (List.mem_of_getElem? hp)
    exact absurd (hrow p.lhs (by simp)) (Nat.not_le_of_lt hlhs)

end LR

namespace Setting

variable {s : Setting} {stop stop' : Position} {goal : Goal} {words more read : List Token} {finish : Token}
  {c d : Config Token (List String)}

/-- What a reduction makes does not depend on where the text ends. -/
theorem reduce_atEnd {number : Nat} {f : Rule.Form} (hf : Rule.form? number = some f) {stack : List Token}
    (h : f.rhs.length ≤ stack.length) (atEnd atEnd' : Span) :
    s.reduce atEnd number stack = s.reduce atEnd' number stack := by
  have hrhs : ∀ f ∈ Rule.table, f.rhs ≠ [] := by decide
  have hne : (stack.take f.rhs.length).reverse ≠ [] := by
    have := List.length_pos_of_ne_nil (hrhs f (List.mem_of_getElem? hf))
    rw [← List.length_pos_iff, List.length_reverse, List.length_take]
    omega
  unfold reduce
  rw [hf]
  dsimp only
  rw [if_neg (Nat.not_lt_of_le h), if_neg (Nat.not_lt_of_le h)]
  obtain ⟨t, ts, hts⟩ := List.exists_cons_of_ne_nil hne
  obtain ⟨u, hu⟩ := Option.isSome_iff_exists.mp (List.getLast?_isSome.mpr hne)
  have hspan : ∀ below : Option Symbol, Phrase.span ⟨(stack.take f.rhs.length).reverse, below⟩ atEnd =
      Phrase.span ⟨(stack.take f.rhs.length).reverse, below⟩ atEnd' := by
    intro below
    unfold Phrase.span
    dsimp only
    rw [hu, hts]
    rfl
  rw [hspan]

/-- A name that may be reduced to and is alone on the stack is the first word. -/
theorem read_eq_name {numbers : List Nat}
    (hreads : LR.Reads Rule.grammar (s.semantics stop) words goal.index numbers read d) {k production : Nat}
    (hl : Rule.tables.lookup d.state d.next.symbol.index = .ambiguous k)
    (hc : (Rule.tables.choice k).2 = .reduce production)
    (hname : (Rule.form? production).any (·.rule == .identifier) = true) (hstack : d.stack.length = 1) :
    read.map (·.symbol) = [.identifier] := by
  have hgoal := Rule.grammar.states_goal Rule.augmented (List.getElem?_eq_getElem (goal_lt goal))
  obtain ⟨r, -, hr, -⟩ := Rule.grammar.exists_goal Rule.augmented (List.getElem_mem (goal_lt goal))
  obtain ⟨q, hq⟩ := hreads.stacked.exists_top hgoal
  obtain rfl : production = Rule.identifier.index := by
    cases hf : Rule.form? production with
    | none =>
      rw [hf] at hname
      cases hname
    | some f =>
      rw [hf] at hname
      rw [Rule.eq_index_of_form? hf, beq_iff_eq.mp hname]
  have hside : Rule.grammar.Sanctioned q d.next.symbol.index (.reduce Rule.identifier.index) := by
    have hsides := LR.lookup_sanctioned hq d.next.symbol.index_lt
    rw [show LR.Tables.build Rule.grammar = Rule.tables from rfl, ← Config.state, hl] at hsides
    rcases hsides with h | ⟨k', hl', -, h⟩
    · cases h
    · rwa [← Action.ambiguous.inj hl', hc] at h
  cases hside with
  | @reduce _ p hp hi =>
    obtain rfl := Option.some.inj (hp.symm.trans (production_eq (r := .identifier) rfl))
    -- the name is on top of the stack, and nothing but itself is derived from it
    obtain ⟨-, htop⟩ := hreads.phrase Rule.augmented hgoal hr hq hp hi
    have hrow : d.stack.map (·.symbol.index) = [Symbol.identifier.index] := by
      rwa [List.take_of_length_le (by rw [List.length_map, hstack]; decide)] at htop
    have hright := hreads.rightmost [] (by simp)
    have hsymbols : d.stack.map (s.semantics stop).symbol = [Symbol.identifier.index] := hrow
    rw [hsymbols, List.append_nil, List.append_nil] at hright
    have hread := hright.eq_of_terminal Rule.augmented.checked (by decide)
    refine Symbol.map_index_injective ?_
    rw [List.map_map]
    exact hread

/-- Where a bar is next behind a leading name, the text begins with the two. -/
theorem words_eq_of_name {numbers : List Nat}
    (hreads : LR.Reads Rule.grammar (s.semantics stop) words goal.index numbers read d)
    (hname : read.map (·.symbol) = [.identifier]) (hbar : d.next.symbol = .bar) :
    words.map (·.symbol) = .identifier :: .bar :: d.rest.map (·.symbol) := by
  have hone : read.length = 1 := by
    rw [← List.length_map (·.symbol), hname]
    rfl
  have hread := hreads.read_eq
  obtain ⟨hnext, hrest⟩ := hreads.place
  rw [hone] at hread hnext hrest
  rw [hread] at hname
  rw [hnext] at hbar
  rw [hrest]
  match words, hname, hbar with
  | [], hname, _ => cases hname
  | [_], _, hbar => cases hbar
  | w :: v :: rest, hname, hbar =>
    have hw : w.symbol = .identifier := (List.cons.inj hname).1
    have hv : v.symbol = .bar := hbar
    rw [List.map_cons, List.map_cons, hw, hv]
    rfl

/-- The end of the input is not shifted. -/
theorem not_shift_finish {numbers : List Nat}
    (hreads : LR.Reads Rule.grammar (s.semantics stop) words goal.index numbers read d)
    (hnext : d.next.symbol = .finish) (m : Nat) : d.decision Rule.tables (s.semantics stop) ≠ .shift m := by
  intro hd
  have hgoal := Rule.grammar.states_goal Rule.augmented (List.getElem?_eq_getElem (goal_lt goal))
  obtain ⟨q, hq⟩ := hreads.stacked.exists_top hgoal
  have hsanctioned := LR.sanctioned_decision (s.lawful stop) hq d.next.symbol.index_lt
  rw [show LR.Tables.build Rule.grammar = Rule.tables from rfl, hd] at hsanctioned
  cases hsanctioned with
  | shift _ hafter _ =>
    obtain ⟨p, hp, hx⟩ := LR.Grammar.mem_rhs_of_after hafter
    have hx : d.next.symbol.index ∈ p.rhs := hx
    rw [hnext] at hx
    exact Rule.finish_not_mem p hp hx

/-! ## Two parsers abreast -/

/-- The first parser reads a text with more tokens behind its end, the second one reads it alone. They are in the same
states, and the same words are read. -/
structure Abreast (s : Setting) (stop stop' : Position) (goal : Goal) (words more : List Token) (finish : Token)
    (c d : Config Token (List String)) : Prop where
  states : c.states = d.states
  stack : c.stack = d.stack
  memo : c.memo = d.memo
  reads : ∃ numbers read, LR.Reads Rule.grammar (s.semantics stop) words goal.index numbers read d ∧
    c.At (s.semantics stop') (words ++ finish :: more) read.length

/-- Both turns lead to parsers abreast, or end the run with one answer. -/
inductive Accord (R : Config Token (List String) → Config Token (List String) → Prop) :
    LR.Turn Token (List String) Error → LR.Turn Token (List String) Error → Prop where
  | go {c d : Config Token (List String)} (h : R c d) : Accord R (.go c) (.go d)
  | stop {o o' : LR.Outcome Token (List String) Error} (h : o.result = o'.result) (hmemo : o.memo = o'.memo) :
      Accord R (.stop o) (.stop o')

/-- The tokens in front of both parsers: the same word, or the end of the input. -/
theorem next_of_at {n : Nat} (hc : c.At (s.semantics stop') (words ++ finish :: more) n)
    (hd : d.At (s.semantics stop) words n) (hn : n ≤ words.length) :
    (c.next = d.next ∧ c.rest = d.rest ++ finish :: more) ∨ (c.next = finish ∧ d.next = .finish stop) := by
  rw [hc.1, hc.2, hd.1, hd.2, LR.Semantics.stream, LR.Semantics.stream]
  rcases Nat.lt_or_eq_of_le hn with hlt | rfl
  · rw [List.getElem?_append_left hlt, List.getElem?_eq_getElem hlt, List.drop_append_of_le_length hlt]
    exact .inl ⟨rfl, rfl⟩
  · rw [List.getElem?_append_right (Nat.le_refl _), Nat.sub_self, List.getElem?_eq_none (Nat.le_refl _)]
    exact .inr ⟨rfl, rfl⟩

/-- The bracket behind a leading name and a bar closes an interval for the second parser if it does for the first. -/
def LooksAlike (words more : List Token) : Prop :=
  ∀ rest, words.map (·.symbol) = .identifier :: .bar :: rest →
    Bars.isIntervalAhead (rest ++ .finish :: more.map (·.symbol)) = true → Bars.isIntervalAhead rest = true

namespace Abreast

variable (h : Abreast s stop stop' goal words more finish c d)

include h

/-- The words that are read are some of the text, and both parsers are in front of the next one or of the end. -/
theorem ahead : ∃ numbers read, LR.Reads Rule.grammar (s.semantics stop) words goal.index numbers read d ∧
    c.At (s.semantics stop') (words ++ finish :: more) read.length ∧
    ((c.next = d.next ∧ c.rest = d.rest ++ finish :: more) ∨ (c.next = finish ∧ d.next = .finish stop)) := by
  obtain ⟨numbers, read, hreads, hplace⟩ := h.reads
  have hn := hreads.length_le Rule.augmented.checked Rule.finish_not_mem
  exact ⟨numbers, read, hreads, hplace, next_of_at hplace hreads.place hn⟩

/-- Both parsers decide alike. -/
theorem decision_eq (hfinish : finish.symbol = .finish) (hahead : LooksAlike words more) :
    c.decision Rule.tables (s.semantics stop') = d.decision Rule.tables (s.semantics stop) := by
  obtain ⟨numbers, read, hreads, -, hnext⟩ := h.ahead
  have hstate : c.state = d.state := by rw [Config.state, Config.state, h.states]
  have hsymbol : c.next.symbol = d.next.symbol := by
    rcases hnext with ⟨hnext, -⟩ | ⟨hc, hd⟩
    · rw [hnext]
    · rw [hc, hd, hfinish]
      rfl
  cases hl : Rule.tables.lookup d.state d.next.symbol.index with
  | ambiguous k =>
    rw [decision_of_ambiguous (hsymbol ▸ hstate ▸ hl), decision_of_ambiguous hl, hsymbol, h.stack]
    refine Bars.choose_congr_of_name _ _ _ _ fun production hc hname hstack hbar => ?_
    rw [List.length_map] at hstack
    rcases hnext with ⟨-, hrest⟩ | ⟨-, hd⟩
    · have hwords := words_eq_of_name hreads (read_eq_name hreads hl hc hname hstack) hbar
      rw [hrest, List.map_append, List.map_cons, hfinish]
      rw [Bool.eq_iff_iff]
      exact ⟨hahead _ hwords, Bars.isIntervalAhead_append_of_ahead _⟩
    · rw [hd] at hbar
      cases hbar
  | _ =>
    rw [decision_of_lookup hl (by rintro _ ⟨⟩)]
    exact decision_of_lookup (hsymbol ▸ hstate ▸ hl) (by rintro _ ⟨⟩)

/-- Turns that lead on from the same decision keep the parsers abreast, if they do the same to the states and the
stack. -/
theorem go {c' d' : Config Token (List String)}
    (hdecision : c.decision Rule.tables (s.semantics stop') = d.decision Rule.tables (s.semantics stop))
    (hc : c.step Rule.tables (s.semantics stop') = .go c') (hd : d.step Rule.tables (s.semantics stop) = .go d')
    (hstates : c'.states = d'.states) (hstack : c'.stack = d'.stack) (hmemo : c'.memo = d'.memo) :
    Abreast s stop stop' goal words more finish c' d' := by
  obtain ⟨numbers, read, hreads, hplace⟩ := h.reads
  refine ⟨hstates, hstack, hmemo, _, _, hreads.go Rule.augmented.checked (s.lawful stop) d.next.symbol.index_lt hd, ?_⟩
  rw [List.length_append, show LR.Tables.build Rule.grammar = Rule.tables from rfl,
    ← Config.length_shifted? hdecision]
  rcases hplace.go hc with ⟨hnone, hplace⟩ | ⟨hsome, hplace⟩
  · rw [hnone]
    exact hplace
  · rw [hsome]
    exact hplace

/-- A reduction keeps the parsers abreast or ends both runs alike. -/
theorem reduce {number : Nat}
    (hdecision : c.decision Rule.tables (s.semantics stop') = d.decision Rule.tables (s.semantics stop))
    (hd : d.decision Rule.tables (s.semantics stop) = .reduce number) :
    Accord (Abreast s stop stop' goal words more finish) (c.step Rule.tables (s.semantics stop'))
      (d.step Rule.tables (s.semantics stop)) := by
  obtain ⟨numbers, read, hreads, -⟩ := h.reads
  have hgoal := Rule.grammar.states_goal Rule.augmented (List.getElem?_eq_getElem (goal_lt goal))
  obtain ⟨r, -, hr, -⟩ := Rule.grammar.exists_goal Rule.augmented (List.getElem_mem (goal_lt goal))
  obtain ⟨p, hp, hphrase⟩ :=
    hreads.phrase_of_decision Rule.augmented (s.lawful stop) hgoal hr d.next.symbol.index_lt hd
  obtain ⟨f, hf, rfl⟩ := Rule.exists_form hp
  have hlength : f.rhs.length ≤ d.stack.length := by
    have := congrArg List.length hphrase
    rw [List.length_take, List.length_map, List.length_map, List.length_reverse, List.length_map] at this
    omega
  have hsame : s.reduce ⟨stop', stop'⟩ number c.stack c.memo = s.reduce ⟨stop, stop⟩ number d.stack d.memo := by
    rw [h.stack, h.memo, reduce_atEnd hf hlength]
  obtain ⟨stats, hcstep⟩ := step_eq_act s stop' c
  obtain ⟨stats', hdstep⟩ := step_eq_act s stop d
  have hsame : (s.semantics stop').reduce number c.next c.stack c.memo =
      (s.semantics stop).reduce number d.next d.stack d.memo := hsame
  rw [hdecision, hd, Config.act, Config.reduce, hsame] at hcstep
  rw [hd, Config.act, Config.reduce] at hdstep
  cases hanswer : (s.semantics stop).reduce number d.next d.stack d.memo with
  | mk answer names =>
    rw [hanswer] at hcstep hdstep
    cases answer with
    | error e =>
      rw [hcstep, hdstep]
      exact .stop rfl rfl
    | ok stack =>
      dsimp only at hcstep hdstep
      rw [show Rule.tables.grammar.productions[number]? = _ from hp] at hcstep hdstep
      have hfault (f : LR.Fault) : (s.semantics stop').fault f = (s.semantics stop).fault f := rfl
      rcases Config.settle_alike (c := { c with stats, memo := names }) (d := { d with stats := stats', memo := names })
        Rule.tables hfault h.states ⟨f.lhs.index, f.rhs.map Symbol.index, f.prec⟩ stack with ⟨states, _, _, hc, hd⟩ | ⟨e, hc, hd⟩
      · have hcgo := hcstep.trans hc
        have hdgo := hdstep.trans hd
        rw [hcgo, hdgo]
        exact .go (h.go hdecision hcgo hdgo rfl rfl rfl)
      · rw [hcstep.trans hc, hdstep.trans hd]
        exact .stop rfl rfl

/-- A turn keeps the parsers abreast or ends both runs alike. -/
theorem step (hfinish : finish.symbol = .finish) (hposition : finish.position = stop) (hahead : LooksAlike words more) :
    Accord (Abreast s stop stop' goal words more finish) (c.step Rule.tables (s.semantics stop'))
      (d.step Rule.tables (s.semantics stop)) := by
  have hdecision := h.decision_eq hfinish hahead
  obtain ⟨numbers, read, hreads, -, hnext⟩ := h.ahead
  have hrefuse : unexpected c.next = unexpected d.next := by
    rcases hnext with ⟨hnext, -⟩ | ⟨hc, hd⟩
    · rw [hnext]
    · rw [hc, hd, unexpected, unexpected, hfinish, hposition]
      rfl
  obtain ⟨stats, hc⟩ := step_eq_act s stop' c
  obtain ⟨stats', hd⟩ := step_eq_act s stop d
  rw [hdecision] at hc
  cases haction : d.decision Rule.tables (s.semantics stop) with
  | shift m =>
    rw [haction] at hc hd
    have hsame : c.next = d.next := by
      rcases hnext with ⟨hnext, -⟩ | ⟨-, hd⟩
      · exact hnext
      · exact absurd haction (not_shift_finish hreads (by rw [hd]; rfl) m)
    rw [hd, hc]
    refine .go (h.go hdecision hc hd ?_ ?_ ?_)
    · rw [Config.shift_states, Config.shift_states]
      exact congrArg (m :: ·) h.states
    · rw [Config.shift_stack, Config.shift_stack]
      exact congrArg₂ List.cons hsame h.stack
    · rw [Config.shift_memo, Config.shift_memo]
      exact h.memo
  | reduce number => exact h.reduce hdecision haction
  | accept =>
    rw [haction] at hc hd
    rw [hc, hd]
    simp only [Config.act, Config.accept, h.stack]
    split
    · exact .stop rfl h.memo
    · exact .stop rfl h.memo
  | _ =>
    rw [haction] at hc hd
    rw [hc, hd]
    exact .stop (congrArg Except.error hrefuse) h.memo

/-- Where the second parser goes, the first one goes too. -/
theorem leads (hfinish : finish.symbol = .finish) (hposition : finish.position = stop) (hahead : LooksAlike words more)
    {n : Nat} {d' : Config Token (List String)} (hd : Leads Rule.tables (s.semantics stop) n d d') :
    ∃ c', Leads Rule.tables (s.semantics stop') n c c' ∧ Abreast s stop stop' goal words more finish c' d' := by
  induction hd generalizing c with
  | refl d => exact ⟨c, .refl c, h⟩
  | @go n d d₁ d' hstep _ ih =>
    have halike := h.step hfinish hposition hahead
    rw [hstep] at halike
    generalize hturn : c.step Rule.tables (s.semantics stop') = turn at halike
    cases halike with
    | go hnext =>
      obtain ⟨c', hleads, habreast⟩ := ih hnext
      exact ⟨c', .go hturn hleads, habreast⟩

end Abreast

/-- At their starts. -/
theorem Abreast.start (s : Setting) (stop stop' : Position) (goal : Goal) (words more : List Token) (finish : Token)
    (names : List String) :
    Abreast s stop stop' goal words more finish
      (Config.start (s.semantics stop') goal.index (words ++ finish :: more) names)
      (Config.start (s.semantics stop) goal.index words names) where
  states := by rw [Config.start_states, Config.start_states]
  stack := by rw [Config.start_stack, Config.start_stack]
  memo := by
    unfold Config.start Config.advance
    split <;> split <;> rfl
  reads := ⟨[], [], .start names, Config.advance_at rfl⟩

/-- What is behind the end of the input does not matter: if a text is followed by the end of the input and then by more
tokens, its outcome is that of the text alone, for either goal and with whatever names. Only a text that begins with a
name, a bar and a bracket must not be made an interval by the tokens behind its end. -/
theorem parseTokens_finish (s : Setting) (goal : Goal) (words more : List Token) (finish : Token) (names : List String)
    (hfinish : finish.symbol = .finish) (hposition : finish.position = stopOf words) (hahead : LooksAlike words more) :
    s.parseTokens goal (words ++ finish :: more) names = s.parseTokens goal words names := by
  obtain ⟨n, hn, d, hd, o, hstop, ho⟩ := exists_stop s goal words names
  obtain ⟨c, hc, habreast⟩ := (Abreast.start s (stopOf words) (stopOf (words ++ finish :: more)) goal words more finish
    names).leads hfinish hposition hahead hd
  have halike := habreast.step hfinish hposition hahead
  rw [hstop] at halike
  generalize hturn : c.step Rule.tables (s.semantics (stopOf (words ++ finish :: more))) = turn at halike
  cases halike with
  | @stop o' _ hresult hmemo =>
    have halone : s.run goal words names = o := ho _ (by omega)
    have hmore : s.run goal (words ++ finish :: more) names = o' := by
      refine run_eq_of_leads hc hturn ?_
      rw [List.length_append]
      omega
    unfold parseTokens
    rw [halone, hmore]
    dsimp only
    rw [hresult, hmemo]

/-- The token of a word on the first line. -/
def wordAt (symbol : Symbol) (lexeme : String) (column : Nat) : Token :=
  ⟨symbol, lexeme, ⟨⟨1, column⟩, ⟨1, column + 1⟩⟩, .nothing⟩

/-- A set of numbers in an interval, with a bracket behind the end of the input. -/
theorem parseTokens_finish_interval :
    let words := [wordAt .identifier "R" 1, wordAt .bar "|" 2, wordAt .leftBracket "[" 3, wordAt .number "0" 4,
      wordAt .comma "," 5, wordAt .number "1" 6, wordAt .rightBracket "]" 7]
    ({} : Setting).parseTokens .equation (words ++ .finish ⟨1, 8⟩ :: [wordAt .rightBracket "]" 9]) [] =
      ({} : Setting).parseTokens .equation words [] := by
  refine parseTokens_finish {} .equation _ _ _ [] rfl (by decide) ?_
  rintro rest ⟨⟩ -
  decide

/-- Without its bracket the interval is looked for behind the end of the input: the name is then not read as a
variable. -/
theorem unclosed_interval_looks_on :
    let words := [wordAt .identifier "R" 1, wordAt .bar "|" 2, wordAt .leftBracket "[" 3, wordAt .number "0" 4,
      wordAt .comma "," 5, wordAt .number "1" 6]
    (∀ t ∈ words, t.symbol.isTerminal = true ∧ t.symbol ≠ .finish) ∧ stopOf words = ⟨1, 7⟩ ∧
      ({} : Setting).parseTokens .equation (words ++ .finish ⟨1, 7⟩ :: [wordAt .rightBracket "]" 8]) [] ≠
        ({} : Setting).parseTokens .equation words [] := by
  intro words
  refine ⟨by decide, by decide, fun h => ?_⟩
  have hnames : (({} : Setting).parseTokens .equation (words ++ .finish ⟨1, 7⟩ :: [wordAt .rightBracket "]" 8])
      []).variableNames = [] ∧ (({} : Setting).parseTokens .equation words []).variableNames = ["R"] := by
    decide +kernel
  rw [h] at hnames
  cases hnames.1.symm.trans hnames.2

end Setting

end Formula
