import Formula.Proofs.Expr.Mirror
import Formula.Proofs.Expr.Precedence

/-!
# Parentheses around an expression

A text that is read as an expression is reduced to one token, which then becomes a whole text
(`Setting.exists_expression`). Between parentheses the parser therefore comes to the same token in front of the closing
one (`Setting.leads_enclosed`). A parenthesis that is closed again behind a name leads to a state from which expressions
are read as at the start of a text (`Setting.mem_interiors`).
-/

namespace Formula

open Interior (behind? charted exceeds interiors)
open LR (Action Config Leads Move Moves)
open Text (Position)
open Translation (same)

/-- The tree is neither a relation nor an interval. -/
def Expr.isOperand : Expr → Bool
  | .relation .. | .truth _ | .interval .. | .setInterval .. => false
  | _ => true

namespace Setting

variable {s : Setting} {stop stop' : Position} {c c' d : Config Token (List String)}

/-! ## What an expression is reduced to -/

/-- The rules of relations and of intervals. -/
def judging : List Rule := .setInterval :: Rule.relations.map (·.1) ++ Rule.intervals.map (·.1)

/-- The rules that make what a whole text may be. -/
theorem equation_rules : ∀ f ∈ Rule.table, f.lhs = .equation →
    f.rule = .plain ∧ f.rhs = [.expression] ∨ f.rule = .bareInterval ∧ f.rhs = [.interval] ∨ f.rule ∈ judging := by
  decide

theorem interval_rules : ∀ f ∈ Rule.table, f.lhs = .interval → f.rule ∈ judging := by
  decide

theorem Makes.of_judging {p : Phrase} {r : Rule} {payload : Payload} (hr : r ∈ judging) (h : s.Makes p r payload) :
    ∃ e, payload = .expr e ∧ e.isOperand = false := by
  have hall : ∀ r ∈ judging, r ∉ Rule.handing.map (·.1) ∧ r ∉ Rule.operations.map (·.1) ∧
      r ∉ Rule.bigOperators.map (·.1) ∧ r ∉ [.definition, .definitionWithoutParameters, .firstArgument, .nextArgument,
        .plusGroup, .plusUnary, .minusGroup, .minusUnary, .power, .factorial, .number, .numberBound, .bars, .identifier,
        .identifierBound, .numberSubscript, .nameSubscript, .call, .callWithoutArguments, .numberSubscriptCall,
        .nameSubscriptCall, .composition, .limit] := by
    decide
  obtain ⟨hhanding, hoperations, hbig, hother⟩ := hall r hr
  cases h with
  | relation | interval | setInterval => exact ⟨_, rfl, rfl⟩
  | hand h => exact absurd (List.mem_map_of_mem h) hhanding
  | operation h => exact absurd (List.mem_map_of_mem h) hoperations
  | big h => exact absurd (List.mem_map_of_mem h) hbig
  | pos h | neg h | number h | identifier h | subscript h | subscriptCall h => rcases h with rfl | rfl <;> simp at hother
  | _ => simp at hother

theorem Makes.of_whole {p : Phrase} {r : Rule} {e : Expr} (hr : r = .plain ∨ r = .bareInterval)
    (h : s.Makes p r (.expr e)) : p.Tree 0 e := by
  cases h with
  | hand h he =>
    obtain rfl : _ = 0 := by rcases hr with rfl | rfl <;> simpa [Rule.handing] using h
    exact he
  | relation h | interval h | operation h | pos h | neg h | number h | identifier h | subscript h | subscriptCall h
  | big h =>
    rcases hr with rfl | rfl <;> simp [Rule.relations, Rule.operations, Rule.bigOperators, Rule.intervals] at h
  | _ => simp at hr

/-- On the stack an expression has no text of its own, and an interval is no operand. -/
def Shaped (t : Token) : Prop :=
  (t.symbol = .expression → t.lexeme = "") ∧
    (t.symbol = .interval → ∃ e, t.payload = .expr e ∧ e.isOperand = false)

theorem shaped_of_move (hm : Move Rule.grammar (s.semantics stop) c c') (h : ∀ t ∈ c.stack, Shaped t) :
    ∀ t ∈ c'.stack, Shaped t := by
  cases hm with
  | shift _ hterminal hc =>
    have hterminals : Rule.grammar.IsTerminal c.next.symbol.index → c.next.symbol ≠ .expression ∧
        c.next.symbol ≠ .interval := by
      cases c.next.symbol <;> decide
    obtain ⟨hexpression, hinterval⟩ := hterminals hterminal
    rw [hc, Config.shift_stack]
    exact List.forall_mem_cons.mpr ⟨⟨fun hx => absurd hx hexpression, fun hx => absurd hx hinterval⟩, h⟩
  | @reduce _ _ _ _ phrase below _ _ token _ _ _ _ hp hstack hphrase _ _ _ hreduce _ _ hc =>
    rw [hstack] at hreduce h
    obtain ⟨f, hf, -, -, -, payload, hmakes, rfl⟩ := makes_of_reduce hp hphrase hreduce
    rw [hc]
    refine List.forall_mem_cons.mpr ⟨⟨fun _ => rfl, fun hx => ?_⟩, fun t ht => h t (List.mem_append_right _ ht)⟩
    exact hmakes.of_judging (interval_rules f hf hx)

/-- A text that is read as an expression is reduced to one, and then to a whole text. -/
theorem exists_expression {words : List Token} {position : Position} {names : List String} {token : Token} {e : Expr}
    (hrun : (s.run .equation (words ++ [.finish position]) names).result = .ok token)
    (hpayload : token.payload = .expr e) (he : e.isOperand = true) :
    let stop := stopOf (words ++ [.finish position])
    ∃ n < 8 * ((words ++ [Token.finish position]).length + 2), ∃ d u,
      Moves Rule.grammar (s.semantics stop) n
        (Config.start (s.semantics stop) Goal.equation.index (words ++ [.finish position]) names) d ∧
      d.stack = [u] ∧ d.next.symbol = .finish ∧ u.symbol = .expression ∧ u.lexeme = "" ∧ u.payload = .expr e := by
  intro stop
  obtain ⟨n, d, hn, hmoves, hstack, -, hnext, hsymbol⟩ := exists_moves hrun
  cases n with
  | zero =>
    cases hmoves
    rw [Config.start_stack] at hstack
    cases hstack
  | succ n =>
    obtain ⟨x, hx, -, hlast⟩ := hmoves.exists_last
    have hshaped := hx.preserve (P := fun c => ∀ t ∈ c.stack, Shaped t) (fun _ _ h hm => shaped_of_move hm h)
      (by rw [Config.start_stack]; simp)
    refine ⟨n, Nat.lt_of_succ_lt hn, x, ?_⟩
    cases hlast with
    | shift _ hterminal hc =>
      rw [hc, Config.shift_stack, List.cons.injEq] at hstack
      have hnot : ∀ t : Token, Rule.grammar.IsTerminal t.symbol.index → t.symbol ≠ .equation := by
        intro t
        cases t.symbol <;> decide
      exact absurd hsymbol (hnot token (hstack.1 ▸ hterminal))
    | @reduce _ _ _ _ phrase below _ _ made _ _ _ _ hp hxstack hphrase _ _ _ hreduce _ _ hc =>
      rw [hxstack] at hreduce hshaped
      obtain ⟨f, hf, -, -, hsymbols, payload, hmakes, rfl⟩ := makes_of_reduce hp hphrase hreduce
      rw [hc] at hstack hnext
      obtain ⟨rfl, rfl⟩ := List.cons.inj hstack
      obtain rfl : payload = .expr e := hpayload
      have hone : ∀ {y}, f.rhs = [y] → (f.rule = .plain ∨ f.rule = .bareInterval) →
          ∃ u, phrase = [u] ∧ u.symbol = y ∧ u.payload = .expr e ∧ Shaped u := by
        intro y hy hr
        rw [hy] at hsymbols
        obtain ⟨u, rfl, hu⟩ := List.map_eq_singleton_iff.mp hsymbols
        obtain ⟨u', hu', htree⟩ := hmakes.of_whole hr
        obtain rfl := Option.some.inj hu'
        exact ⟨u, rfl, hu, htree, hshaped u (by simp)⟩
      rcases equation_rules f hf hsymbol with ⟨hr, hy⟩ | ⟨hr, hy⟩ | hr
      · obtain ⟨u, rfl, hu, htree, hu'⟩ := hone hy (.inl hr)
        exact ⟨u, hx, hxstack, hnext, hu, hu'.1 hu, htree⟩
      · obtain ⟨u, rfl, hu, htree, hu'⟩ := hone hy (.inr hr)
        obtain ⟨_, hinterval, hnot⟩ := hu'.2 hu
        rw [htree] at hinterval
        cases hinterval
        rw [hnot] at he
        cases he
      · obtain ⟨_, hrelation, hnot⟩ := hmakes.of_judging hr
        cases hrelation
        rw [hnot] at he
        cases he

/-! ## Between the parentheses -/

/-- Between parentheses an expression is reduced to one, if bars are opened and closed as in the expression alone. -/
theorem leads_enclosed (stop' : Position) {words words' : List Token} {position : Position} {names : List String}
    {token : Token} {e : Expr} (hwords : ∀ t ∈ words, t.symbol ≠ .finish) (htwins : List.Forall₂ same.Twin words words')
    (hrun : (s.run .equation (words ++ [.finish position]) names).result = .ok token)
    (hpayload : token.payload = .expr e) (he : e.isOperand = true) {q : Nat} {states : List Nat}
    {opening closing : Token} {below rest : List Token} (hq : q ∈ interiors Rule.tables)
    (hopening : opening.symbol = .leftParen) (hclosing : closing.symbol = .rightParen)
    (hlength : states.length = below.length + 1)
    (hbars : let stop := stopOf (words ++ [.finish position])
      ∀ j < 8 * ((words ++ [Token.finish position]).length + 2), ∀ y, Leads Rule.tables (s.semantics stop) j
        (Config.start (s.semantics stop) Goal.equation.index (words ++ [.finish position]) names) y →
          s.BarsAlike stop below y)
    (hstates : d.states = q :: states) (hstack : d.stack = opening :: below)
    (hahead : d.ahead = words' ++ closing :: rest) :
    ∃ n d' r u, Leads Rule.tables (s.semantics stop') n d d' ∧ d'.states = r :: q :: states ∧
      behind? Rule.tables q .expression = some r ∧ d'.stack = u :: opening :: below ∧ d'.ahead = closing :: rest ∧
      u.symbol = .expression ∧ u.lexeme = "" ∧ u.payload = .expr e := by
  obtain ⟨n, hn, c, u, hmoves, hc, hfinish, hsymbol, hlexeme, hu⟩ := exists_expression hrun hpayload he
  have hrow : row c = [.expression] := by rw [row, hc, List.map_singleton, hsymbol]
  have hstart : Inside q states opening below closing rest
      (Config.start (s.semantics (stopOf (words ++ [.finish position]))) Goal.equation.index
        (words ++ [.finish position]) names) d := by
    refine ⟨⟨[q], ?_, hstates⟩, ⟨[], ?_, hstack⟩, words, words', .finish position, htwins, hwords, rfl, ?_, hahead⟩
    · rw [row, Config.start_stack, Config.start_states]
      exact .start
    · rw [Config.start_stack]
      exact .nil
    · exact Config.start_ahead (by simp) _ _
  obtain ⟨d', hleads, hend⟩ := hstart.leads stop' hq hopening hclosing hlength hmoves (by rw [hrow]; rfl)
    fun j hj y hy => hbars j (hj.trans hn) y hy
  -- the tokens of the expression are used up, and its stack is the one token
  obtain ⟨upper, hover, hdstates⟩ := hend.states
  obtain ⟨above, habove, hdstack⟩ := hend.stack
  obtain ⟨left, left', last, hleft, hnotFinish, -, hcahead, hdahead⟩ := hend.ahead
  rw [hc] at habove
  obtain ⟨u', _, htwin, hnil, rfl⟩ := List.forall₂_cons_left_iff.mp habove
  cases hnil
  cases hleft with
  | cons _ _ =>
    rw [List.cons_append] at hcahead
    exact absurd ((List.cons.inj hcahead).1 ▸ hfinish) (hnotFinish _ List.mem_cons_self)
  | nil =>
    rw [hrow] at hover
    generalize hcstates : c.states = states' at hover
    cases hover with
    | push hbottom hr hr' =>
      cases hbottom with
      | start =>
        refine ⟨n, d', _, u', hleads, hdstates, hr', hdstack, hdahead, ?_, ?_, ?_⟩
        · rw [htwin.symbol, hsymbol]
        · exact htwin.lexeme.trans hlexeme
        · rw [htwin.payload, hu, Translation.payload_same]

/-- Where no bar is read none is opened. -/
theorem opensBar_of_no_bar {words : List Token} {position : Position} (hwords : ∀ t ∈ words, t.symbol ≠ .bar)
    {goal : Goal} {names : List String} {n : Nat}
    (hl : Leads Rule.tables (s.semantics stop) n
      (Config.start (s.semantics stop) goal.index (words ++ [.finish position]) names) c) :
    s.opensBar stop c = false := by
  have hhands : s.HandsOn fun t => t.symbol ≠ .bar := by
    intro f phrase below payload span hf _ _ _
    have hlhs : ∀ f ∈ Rule.table, f.lhs ≠ .bar := by decide
    exact hlhs f hf
  have hfinish : ∀ position, (Token.finish position).symbol ≠ .bar := fun _ => by
    show Symbol.finish ≠ .bar
    decide
  have htokens := (moves_of_leads hl).1.preserve (P := fun c => ∀ t ∈ c.tokens, t.symbol ≠ .bar)
    (fun _ _ h hm => hm.forall_tokens (hhands.semantics stop) (hfinish stop) h)
    (Config.forall_start (hfinish stop) (fun t ht => ?_) _ _)
  · have hnext : c.next ∈ c.tokens := by simp [Config.tokens]
    cases hbar : s.opensBar stop c with
    | false => rfl
    | true =>
      obtain ⟨k, hk⟩ := Config.exists_ambiguous_of_shiftsByChoice hbar
      exact absurd (charted.ambiguous hk).1 (htokens c.next hnext)
  · rcases List.mem_append.mp ht with ht | ht
    · exact hwords t ht
    · obtain rfl := List.mem_singleton.mp ht
      exact hfinish position

/-! ## In front of the parentheses -/

/-- No phrase ends with an opening parenthesis. -/
theorem decision_ne_reduce {opening : Token} {below : List Token} (hm : Move Rule.grammar (s.semantics stop) c c')
    (hstack : c.stack = opening :: below) (hopening : opening.symbol = .leftParen) (number : Nat) :
    c.decision Rule.tables (s.semantics stop) ≠ .reduce number := by
  cases hm with
  | shift hd _ _ => exact fun hd' => by cases hd.symm.trans hd'
  | @reduce _ _ _ _ phrase _ _ _ _ _ _ _ _ hp hstack' hphrase _ _ _ hreduce _ _ _ =>
    rw [hstack'] at hreduce
    obtain ⟨f, hf, -, -, hsymbols, -⟩ := makes_of_reduce hp hphrase hreduce
    have hall : ∀ f ∈ Rule.table, f.rhs ≠ [] ∧ f.rhs.getLast? ≠ some .leftParen := by decide
    obtain ⟨hne, hlast⟩ := hall f hf
    refine absurd ?_ hlast
    rw [hstack] at hstack'
    rw [← hsymbols, ← List.head?_reverse, ← List.map_reverse, List.head?_map]
    cases hreverse : phrase.reverse with
    | nil =>
      rw [List.reverse_eq_nil_iff.mp hreverse] at hsymbols
      exact absurd hsymbols.symm hne
    | cons t ts =>
      rw [hreverse] at hstack'
      rw [List.head?_cons, Option.map_some, ← (List.cons.inj hstack').1, hopening]

/-- Moves that come to another token begin with one. -/
theorem exists_move {n : Nat} (h : Moves Rule.grammar (s.semantics stop) n c d) (hne : c.next.symbol ≠ d.next.symbol) :
    ∃ k c', Move Rule.grammar (s.semantics stop) c c' ∧ Moves Rule.grammar (s.semantics stop) k c' d := by
  cases h with
  | refl => exact absurd rfl hne
  | go _ hm h => exact ⟨_, _, hm, h⟩

/-- Behind an opening parenthesis that is closed again behind a name. -/
theorem mem_interiors {x y : Config Token (List String)} {q n : Nat} {name closing : Token} {rest : List Token}
    (hx : x.Shifts Rule.tables (s.semantics stop) q y) (hopening : x.next.symbol = .leftParen)
    (hmoves : Moves Rule.grammar (s.semantics stop) n y d) (hd : d.next.symbol = .finish)
    (hahead : y.ahead = name :: closing :: rest) (hname : name.symbol = .identifier)
    (hclosing : closing.symbol = .rightParen) : q ∈ interiors Rule.tables := by
  have hlookup : Rule.tables.lookup x.state x.next.symbol.index = .shift q := by
    refine (lookup_of_shift hx.decision).resolve_right ?_
    rintro ⟨k, hk⟩
    rw [hopening] at hk
    cases (charted.ambiguous hk).1
  have hq : y.state = q := by rw [Config.state, hx.states, List.headD_cons]
  obtain ⟨hnext, hrest⟩ := List.cons.inj hahead
  -- the name is shifted
  obtain ⟨k, y', hm, hmoves⟩ := exists_move hmoves (by rw [hnext, hname, hd]; decide)
  obtain ⟨m, hshift⟩ | ⟨⟨number, hreduce⟩, -⟩ := hm.shifts_or (by rw [hrest]; simp)
  swap
  · exact absurd hreduce (decision_ne_reduce hm hx.stack hopening number)
  have hbehind := behind?_of_shift hshift.decision
  rw [hq, hnext, hname] at hbehind
  -- the parenthesis behind it is no error
  obtain ⟨hnext', -⟩ := List.cons.inj (hshift.ahead.trans hrest)
  obtain ⟨-, _, hm', -⟩ := exists_move hmoves (by rw [hnext', hclosing, hd]; decide)
  have hclose : Rule.tables.lookup m Symbol.rightParen.index ≠ .error := fun herror => by
    have hdecision : y'.decision Rule.tables (s.semantics stop) = .error := by
      refine decision_of_lookup ?_ (by simp)
      rw [hnext', hclosing, Config.state, hshift.states, List.headD_cons]
      exact herror
    cases hm' with
    | shift hd' _ _ => cases hdecision.symm.trans hd'
    | reduce hd' _ _ _ _ _ _ _ _ _ _ => cases hdecision.symm.trans hd'
  refine List.mem_filter.mpr ⟨List.mem_eraseDups.mpr (List.mem_filterMap.mpr ⟨x.state, ?_, ?_⟩), ?_⟩
  · exact List.mem_range.mpr (charted.lt_stateCount hlookup (by simp))
  · rw [← hopening]
    exact Interior.behind?_of_shift hlookup
  · rw [hbehind, Option.any_some, bne_iff_ne]
    exact hclose

end Setting

end Formula
