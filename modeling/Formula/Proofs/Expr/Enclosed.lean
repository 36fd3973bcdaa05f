import Formula.Proofs.Expr.Interior
import Formula.Proofs.Expr.Translation

/-!
# An expression between parentheses

`Setting.Inside` relates a parser that reads an expression alone to one that reads it between parentheses: their stacks
hold the same above the opening parenthesis, and the same tokens are ahead up to the end of the text and the closing
parenthesis. As long as the first one reads an expression, every move of it is also one of the second
(`Setting.Inside.go`, `Setting.Inside.leads`), provided that bars are opened and closed alike: no bar is open below the
parenthesis, or none is opened by choice in the expression.
-/

namespace Formula

open Interior (Paired exceeds special interiors behind? charted)
open LR (Action Config Leads Move Moves)
open Text (Position)
open Translation (same Twin)

namespace Setting

variable {s : Setting} {stop stop' : Position} {c c' d : Config Token (List String)}

/-- The symbols on the stack of a parser, top in front. -/
def row (c : Config Token (List String)) : List Symbol := c.stack.map (·.symbol)

/-- The parser shifts a bar where it could also reduce. -/
def opensBar (s : Setting) (stop : Position) (c : Config Token (List String)) : Bool :=
  c.shiftsByChoice Rule.tables (s.semantics stop)

theorem opensBar_of_shift {k n : Nat} (hl : Rule.tables.lookup c.state c.next.symbol.index = .ambiguous k)
    (hd : c.decision Rule.tables (s.semantics stop) = .shift n) : s.opensBar stop c = true :=
  Config.shiftsByChoice_of_shift hl hd

/-- A shift is decided by the tables or by a choice. -/
theorem lookup_of_shift {n : Nat} (hd : c.decision Rule.tables (s.semantics stop) = .shift n) :
    Rule.tables.lookup c.state c.next.symbol.index = .shift n ∨
      ∃ k, Rule.tables.lookup c.state c.next.symbol.index = .ambiguous k := by
  cases hl : Rule.tables.lookup c.state c.next.symbol.index with
  | ambiguous k => exact .inr ⟨k, rfl⟩
  | _ =>
    rw [decision_of_lookup hl (by simp)] at hd
    exact .inl hd

/-- A reduction is decided by the tables, or it is one side of a choice. -/
theorem lookup_of_reduce {p : Nat} (hd : c.decision Rule.tables (s.semantics stop) = .reduce p) :
    Rule.tables.lookup c.state c.next.symbol.index = .reduce p ∨
      ∃ k, Rule.tables.lookup c.state c.next.symbol.index = .ambiguous k ∧ (Rule.tables.choice k).2 = .reduce p := by
  cases hl : Rule.tables.lookup c.state c.next.symbol.index with
  | ambiguous k =>
    rw [decision_of_ambiguous hl] at hd
    obtain ⟨-, m, p', hk, -, -⟩ := charted.ambiguous hl
    refine .inr ⟨k, rfl, ?_⟩
    rcases Bars.choose_eq Rule.tables k c.next.symbol (c.stack.map (·.symbol)) (c.rest.map (·.symbol)) with he | he
    · rw [he, hk] at hd
      cases hd
    · rw [← he, hd]
  | _ =>
    rw [decision_of_lookup hl (by simp)] at hd
    exact .inl hd

theorem behind?_of_shift {n : Nat} (hd : c.decision Rule.tables (s.semantics stop) = .shift n) :
    behind? Rule.tables c.state c.next.symbol = some n := by
  rcases lookup_of_shift hd with hl | ⟨k, hl⟩
  · exact Interior.behind?_of_shift hl
  · obtain ⟨-, m, p, hk, -, -⟩ := charted.ambiguous hl
    rw [decision_of_ambiguous hl] at hd
    rcases Bars.choose_eq Rule.tables k c.next.symbol (c.stack.map (·.symbol)) (c.rest.map (·.symbol)) with he | he
    · rw [he, hk] at hd
      cases hd
      exact Interior.behind?_of_ambiguous hl hk
    · rw [he, hk] at hd
      cases hd

/-- The end of a text is not shifted. -/
theorem decision_ne_shift (h : c.next.symbol = .finish) (n : Nat) :
    c.decision Rule.tables (s.semantics stop) ≠ .shift n := fun hd => (charted.behind (behind?_of_shift hd)).1 h

/-! ## Two stacks -/

section

variable {q : Nat} {states upper : List Nat} {above below : List Token}

/-- The states on top of two stacks above the same row. -/
theorem exists_tops (hp : Paired Rule.tables q (row c) c.states upper) (hd : d.states = upper ++ states) :
    ∃ ms ms', Paired Rule.tables q (row c) (c.state :: ms) (d.state :: ms') ∧ c.states = c.state :: ms ∧
      d.states = d.state :: (ms' ++ states) := by
  obtain ⟨hlength, hlength'⟩ := hp.length_eq
  obtain ⟨m, ms, hc⟩ := List.exists_cons_of_length_eq_add_one hlength
  obtain ⟨m', ms', rfl⟩ := List.exists_cons_of_length_eq_add_one hlength'
  rw [List.cons_append] at hd
  obtain rfl : c.state = m := by rw [Config.state, hc, List.headD_cons]
  obtain rfl : d.state = m' := by rw [Config.state, hd, List.headD_cons]
  rw [hc] at hp
  exact ⟨ms, ms', hp, hc, hd⟩

/-- A reduction is made on both stacks, if the second parser decides on it too, builds something of its phrase and can
go on from the state below. -/
theorem exists_replaces {f : Rule.Form} {phrase belowC : List Token} {V : Token → Token → Prop}
    {K : Payload → List String → Prop} (hr : s.Replaces stop f phrase belowC c c')
    (hp : Paired Rule.tables q (row c) c.states upper) (hstates : d.states = upper ++ states)
    (hV : ∀ t t', V t t' → t.symbol = t'.symbol) (habove : List.Forall₂ V c.stack above)
    (hstack : d.stack = above ++ below) (hlength : states.length = below.length)
    (hd : d.decision Rule.tables (s.semantics stop') = .reduce f.rule.index)
    (hgoto : ∀ {b b' bl bl' k}, Paired Rule.tables q (belowC.map (·.symbol)) (b :: bl) (b' :: bl') →
      Rule.tables.lookup b f.lhs.index = .goto k → ∃ k', Rule.tables.lookup b' f.lhs.index = .goto k')
    (hbuild : ∀ {phrase' belowD}, List.Forall₂ V phrase phrase' → List.Forall₂ V belowC belowD → ∃ payload names,
      K payload names ∧
        s.build ⟨phrase', (belowD ++ below).head?.map (·.symbol)⟩ f.rule d.memo = (.ok payload, names)) :
    ∃ d' upper' belowD payload span, d.step Rule.tables (s.semantics stop') = .go d' ∧
      Paired Rule.tables q (row c') c'.states upper' ∧ d'.states = upper' ++ states ∧
      List.Forall₂ V belowC belowD ∧ d'.stack = ⟨f.lhs, "", span, payload⟩ :: (belowD ++ below) ∧ d'.ahead = d.ahead ∧
      K payload d'.memo := by
  obtain ⟨aboveC, b, bl, k, hcstates, hover, -, hk, hcstates'⟩ := hr.states
  obtain ⟨made, made', -, hcstack'⟩ := hr.built
  have hrow : row c = f.rhs.reverse ++ belowC.map (·.symbol) := by
    rw [row, hr.stack, List.map_append, List.map_reverse, hr.symbols]
  -- the states below the phrase
  rw [hrow] at hp
  obtain ⟨front, front', bottom, bottom', low, low', he, rfl, hl, hl', hpb⟩ := hp.drop
  rw [List.length_reverse] at hl hl'
  rw [he] at hcstates
  obtain ⟨-, hbottom⟩ := List.append_inj hcstates (by rw [hl, hover])
  obtain ⟨rfl, rfl⟩ := List.cons.inj hbottom
  obtain ⟨k', hk'⟩ := hgoto hpb hk
  -- the tokens of the phrase and below it
  rw [hr.stack] at habove
  obtain ⟨phrase', belowD, rfl, hphrases, hbelows⟩ := forall₂_reverse_append habove
  obtain ⟨payload, names, hK, hpayload⟩ := hbuild hphrases hbelows
  have hcount : (low' ++ states).length = (belowD ++ below).length := by
    have hlow := hpb.length_eq.2
    rw [List.length_cons, List.length_map] at hlow
    rw [List.length_append, List.length_append, ← hbelows.length_eq, hlength]
    omega
  obtain ⟨d', span, hstep, hdstates, hdstack, hahead, hmemo⟩ := step_replace hr.mem hd
    (by rw [hstack, List.append_assoc]) (by rw [← map_symbol_of_forall₂ hV hphrases, hr.symbols]) hpayload
    (by rw [hstates, List.append_assoc, List.cons_append]) hl' hcount hk'
  refine ⟨d', k' :: bottom' :: low', belowD, payload, span, hstep, ?_, hdstates, hbelows, hdstack, hahead, hmemo ▸ hK⟩
  rw [row, hcstack', hcstates']
  exact .push hpb (Interior.behind?_of_goto hk) (Interior.behind?_of_goto hk')

end

/-! ## Stacks that exceed an expression -/

theorem row_of_shift {n : Nat} {stats : LR.Stats} {memo : List String}
    (hc : c' = ({ c with stats, memo } : Config Token (List String)).shift (s.semantics stop) n) :
    row c' = c.next.symbol :: row c := by
  rw [hc, row, Config.shift_stack, List.map_cons]
  rfl

/-- A property of rows that is kept when a symbol is put on top, or in the place of a right-hand side, is kept by
moves. -/
theorem row_preserves {P : List Symbol → Prop} (hcons : ∀ x row, P row → P (x :: row))
    (hreduce : ∀ f ∈ Rule.table, ∀ row, P (f.rhs.reverse ++ row) → P (f.lhs :: row))
    (hm : Move Rule.grammar (s.semantics stop) c c') (h : P (row c)) : P (row c') := by
  cases hm with
  | shift _ _ hc =>
    rw [row_of_shift hc]
    exact hcons _ _ h
  | @reduce _ _ _ _ phrase below _ _ token _ _ _ _ hp hstack hphrase _ _ _ hreduce' _ _ hc =>
    rw [hstack] at hreduce'
    obtain ⟨f, hf, -, -, hsymbols, payload, -, rfl⟩ := makes_of_reduce hp hphrase hreduce'
    rw [row, hstack, List.map_append, List.map_reverse, hsymbols] at h
    rw [hc]
    exact hreduce f hf _ h

theorem exceeds_of_move (hm : Move Rule.grammar (s.semantics stop) c c') (h : exceeds (row c) = true) :
    exceeds (row c') = true :=
  row_preserves (P := (exceeds · = true)) (fun x _ h => Interior.exceeds_cons h x)
    (fun _ hf _ h => Interior.exceeds_reduce hf h) hm h

theorem exceeds_before_move (hm : Move Rule.grammar (s.semantics stop) c c') (h : exceeds (row c') = false) :
    exceeds (row c) = false := by
  cases hc : exceeds (row c) with
  | false => rfl
  | true =>
    rw [exceeds_of_move hm hc] at h
    cases h

theorem exceeds_before_moves {n : Nat} (hm : Moves Rule.grammar (s.semantics stop) n c c')
    (h : exceeds (row c') = false) : exceeds (row c) = false := by
  induction hm with
  | refl => exact h
  | go _ hm _ ih => exact exceeds_before_move hm (ih h)

/-- While no more than an expression is read, only a bar closes that is open. -/
theorem openBars_row (h : exceeds (row c) = false) : Bars.openBars (row c) = (row c).count .bar := by
  unfold Bars.openBars
  split
  · rename_i rest he
    unfold exceeds at h
    rw [he] at h
    simp [Interior.beginsWhole] at h
  · rw [List.count_reverse]

/-! ## Decisions -/

/-- A parser that reads an expression alone, and one that reads it between parentheses. -/
structure Inside (q : Nat) (states : List Nat) (opening : Token) (below : List Token) (closing : Token)
    (rest : List Token) (c d : Config Token (List String)) : Prop where
  states : ∃ upper, Paired Rule.tables q (row c) c.states upper ∧ d.states = upper ++ states
  stack : ∃ above, List.Forall₂ same.Twin c.stack above ∧ d.stack = above ++ opening :: below
  ahead : ∃ words words' last, List.Forall₂ same.Twin words words' ∧ (∀ t ∈ words, t.symbol ≠ .finish) ∧
    last.symbol = .finish ∧ c.next :: c.rest = words ++ [last] ∧ d.next :: d.rest = words' ++ closing :: rest

/-- Bars are opened and closed alike. -/
def BarsAlike (s : Setting) (stop : Position) (below : List Token) (c : Config Token (List String)) : Prop :=
  Bars.openBars (below.map (·.symbol)) = 0 ∨ s.opensBar stop c = false

section

variable {q : Nat} {states : List Nat} {opening closing : Token} {below rest : List Token}

/-- The next token is the same, unless it is the end of the text. -/
theorem Inside.next (h : Inside q states opening below closing rest c d) :
    d.next.symbol = c.next.symbol ∨ c.next.symbol = .finish ∧ d.next = closing := by
  obtain ⟨words, words', last, htwins, -, hlast, hc, hd⟩ := h.ahead
  cases htwins with
  | nil => exact .inr ⟨(List.cons.inj hc).1 ▸ hlast, (List.cons.inj hd).1⟩
  | cons ht _ => exact .inl (by rw [(List.cons.inj hc).1, (List.cons.inj hd).1, ht.symbol])

theorem Inside.row_eq (h : Inside q states opening below closing rest c d) (hopening : opening.symbol = .leftParen) :
    row d = row c ++ .leftParen :: below.map (·.symbol) := by
  obtain ⟨above, htwins, hd⟩ := h.stack
  rw [row, hd, List.map_append, Translation.symbols_eq htwins, List.map_cons, hopening]
  rfl

/-- The two states are the same, or those above a special row. -/
theorem Inside.tops (h : Inside q states opening below closing rest c d) :
    ∃ ms ms', Paired Rule.tables q (row c) (c.state :: ms) (d.state :: ms') ∧ c.states = c.state :: ms ∧
      d.states = d.state :: (ms' ++ states) := by
  obtain ⟨upper, hp, hd⟩ := h.states
  exact exists_tops hp hd

/-- A choice that is open between parentheses is settled as in the expression alone. -/
theorem Inside.choose_eq (hopening : opening.symbol = .leftParen)
    (h : Inside q states opening below closing rest c d) (hlive : exceeds (row c) = false)
    (hspecial : row c ∉ special) (hstate : d.state = c.state) (hbars : s.BarsAlike stop below c) {k : Nat}
    (hl : Rule.tables.lookup c.state c.next.symbol.index = .ambiguous k) :
    d.decision Rule.tables (s.semantics stop') = c.decision Rule.tables (s.semantics stop) := by
  obtain ⟨hx, m, p, hk, -, hname⟩ := charted.ambiguous hl
  have hname : (Rule.form? p).all (·.rule != .identifier) = true := by
    refine hname.resolve_right fun hm => hspecial ?_
    obtain ⟨ms, ms', hp, -, -⟩ := h.tops
    have hrow : row c ≠ [] := by
      intro hrow
      rw [hrow] at hspecial
      exact hspecial (by decide)
    rw [hp.eq_singleton charted hrow hm]
    decide
  have hnext : d.next.symbol = .bar := by
    rcases h.next with hn | ⟨hn, -⟩
    · rw [hn, hx]
    · rw [hx] at hn
      cases hn
  have hl' : Rule.tables.lookup d.state d.next.symbol.index = .ambiguous k := by rw [hstate, hnext, ← hx, hl]
  have hc := @decision_of_ambiguous s stop c k hl
  have hd := @decision_of_ambiguous s stop' d k hl'
  rw [hx, Bars.choose_bar hk hname] at hc
  rw [hnext, Bars.choose_bar hk hname] at hd
  rw [hc, hd]
  have hrow : Bars.openBars (d.stack.map (·.symbol)) =
      Bars.openBars (below.map (·.symbol)) + (row c).count .bar := by
    show Bars.openBars (row d) = _
    rw [h.row_eq hopening, Bars.openBars_append_paren]
  have hrow' : Bars.openBars (c.stack.map (·.symbol)) = (row c).count .bar := openBars_row hlive
  rw [hrow, hrow']
  rcases hbars with hbars | hbars
  · rw [hbars, Nat.zero_add]
  · -- the choice is the reduction, and more bars are open between parentheses
    have hreduce : ((Rule.tables.grammar.productionPrec? p).any (Rule.juxtapositionLevel ≤ ·.level) ||
        (row c).count .bar != 0) = true := by
      by_contra hne
      rw [hrow', if_neg hne] at hc
      rw [opensBar_of_shift hl hc] at hbars
      cases hbars
    rw [if_pos hreduce, if_pos]
    rw [Bool.or_eq_true, bne_iff_ne] at hreduce ⊢
    exact hreduce.imp_right (by omega)

/-- What is shifted in the expression alone is shifted between parentheses. -/
theorem Inside.decision_shift (stop' : Position) (hq : q ∈ interiors Rule.tables) (hopening : opening.symbol = .leftParen)
    (h : Inside q states opening below closing rest c d)
    (hlive : exceeds (c.next.symbol :: row c) = false) (hbars : s.BarsAlike stop below c) {n : Nat}
    (hc : c.decision Rule.tables (s.semantics stop) = .shift n) :
    ∃ n', d.decision Rule.tables (s.semantics stop') = .shift n' ∧ d.next.symbol = c.next.symbol ∧
      behind? Rule.tables c.state c.next.symbol = some n ∧ behind? Rule.tables d.state c.next.symbol = some n' := by
  have hbehind := behind?_of_shift hc
  have hnext : d.next.symbol = c.next.symbol := h.next.resolve_right fun hn => (charted.behind hbehind).1 hn.1
  obtain ⟨ms, ms', hp, -, -⟩ := h.tops
  by_cases hspecial : row c ∈ special
  · obtain ⟨m, m', hm, hm', -, hagrees⟩ := charted.agrees hq hspecial
    obtain ⟨hw, hw'⟩ := hp.walk_eq
    obtain rfl := Option.some.inj (hm.symm.trans hw)
    obtain rfl := Option.some.inj (hm'.symm.trans hw')
    have ha := hagrees _ (charted.behind hbehind).1
    rcases lookup_of_shift hc with hl | ⟨k, hl⟩
    · rw [hl] at ha
      obtain ⟨n', hl', -⟩ := Interior.agrees_shift ha hlive
      exact ⟨n', decision_of_lookup (hnext ▸ hl') (by simp), hnext, hbehind, Interior.behind?_of_shift hl'⟩
    · rw [hl] at ha
      rw [(Interior.agrees_ambiguous ha).1] at hlive
      cases hlive
  · have hstate := (hp.eq_of_not_special charted hq (Interior.exceeds_tail hlive) hspecial).symm
    refine ⟨n, ?_, hnext, hbehind, hstate ▸ hbehind⟩
    rcases lookup_of_shift hc with hl | ⟨k, hl⟩
    · exact decision_of_lookup (by rw [hstate, hnext, hl]) (by simp)
    · rw [h.choose_eq hopening (Interior.exceeds_tail hlive) hspecial hstate hbars hl, hc]

/-- By what the expression alone is reduced is reduced between parentheses. -/
theorem Inside.decision_reduce (stop' : Position) (hq : q ∈ interiors Rule.tables)
    (hopening : opening.symbol = .leftParen) (hclosing : closing.symbol = .rightParen)
    (h : Inside q states opening below closing rest c d)
    (hlive : exceeds (row c) = false) (hbars : s.BarsAlike stop below c) {f : Rule.Form} (hf : f ∈ Rule.table)
    (hwhole : f.lhs ∉ Interior.wholes)
    (hc : c.decision Rule.tables (s.semantics stop) = .reduce f.rule.index) :
    d.decision Rule.tables (s.semantics stop') = .reduce f.rule.index := by
  obtain ⟨ms, ms', hp, -, -⟩ := h.tops
  by_cases hfinish : c.next.symbol = .finish
  · -- the expression ends, and the parenthesis closes
    have hl := (lookup_of_reduce hc).resolve_right fun ⟨k, hl, _⟩ => by
      rw [hfinish] at hl
      cases (charted.ambiguous hl).1
    rw [hfinish] at hl
    have hcloses : Interior.closes Rule.tables c.state d.state = true := by
      by_cases hspecial : row c ∈ special
      · obtain ⟨m, m', hm, hm', hcloses, -⟩ := charted.agrees hq hspecial
        obtain ⟨hw, hw'⟩ := hp.walk_eq
        obtain rfl := Option.some.inj (hm.symm.trans hw)
        obtain rfl := Option.some.inj (hm'.symm.trans hw')
        exact hcloses
      · rw [← hp.eq_of_not_special charted hq hlive hspecial]
        exact charted.closes _
    have hnext : d.next.symbol = .rightParen := by
      rcases h.next with hn | ⟨-, hn⟩
      · obtain ⟨words, words', last, htwins, hwords, -, hcn, hdn⟩ := h.ahead
        cases htwins with
        | nil => rw [(List.cons.inj hdn).1, hclosing]
        | cons _ _ => exact absurd ((List.cons.inj hcn).1 ▸ hfinish) (hwords _ List.mem_cons_self)
      · rw [hn, hclosing]
    refine decision_of_lookup ?_ (by simp)
    rw [hnext]
    refine (Interior.closes_of_reduce hcloses hl).resolve_right fun hany => hwhole ?_
    rw [Rule.form?_of_mem hf] at hany
    exact of_decide_eq_true hany
  · have hnext : d.next.symbol = c.next.symbol := h.next.resolve_right fun hn => hfinish hn.1
    by_cases hspecial : row c ∈ special
    · obtain ⟨m, m', hm, hm', -, hagrees⟩ := charted.agrees hq hspecial
      obtain ⟨hw, hw'⟩ := hp.walk_eq
      obtain rfl := Option.some.inj (hm.symm.trans hw)
      obtain rfl := Option.some.inj (hm'.symm.trans hw')
      have ha := hagrees _ hfinish
      refine decision_of_lookup ?_ (by simp)
      rw [hnext]
      rcases lookup_of_reduce hc with hl | ⟨k, hl, hk⟩
      · rw [hl] at ha
        exact Interior.agrees_reduce ha
      · rw [hl] at ha
        rw [(Interior.agrees_ambiguous ha).2, hk]
    · have hstate := (hp.eq_of_not_special charted hq hlive hspecial).symm
      rcases lookup_of_reduce hc with hl | ⟨k, hl, -⟩
      · exact decision_of_lookup (by rw [hstate, hnext, hl]) (by simp)
      · rw [h.choose_eq hopening hlive hspecial hstate hbars hl, hc]

/-! ## Moves -/

/-- A move in the expression alone is one between parentheses. -/
theorem Inside.go (stop' : Position) (hq : q ∈ interiors Rule.tables) (hopening : opening.symbol = .leftParen)
    (hclosing : closing.symbol = .rightParen) (hlength : states.length = below.length + 1)
    (h : Inside q states opening below closing rest c d) (hstep : c.step Rule.tables (s.semantics stop) = .go c')
    (hm : Move Rule.grammar (s.semantics stop) c c') (hlive : exceeds (row c') = false)
    (hbars : s.BarsAlike stop below c) :
    ∃ d', d.step Rule.tables (s.semantics stop') = .go d' ∧ Inside q states opening below closing rest c' d' := by
  have hlive' : exceeds (row c) = false := exceeds_before_move hm hlive
  obtain ⟨ms, ms', hp, hcs, hds⟩ := h.tops
  obtain ⟨above, htwins, hdstack⟩ := h.stack
  obtain ⟨words, words', last, hwords, hfinish, hlast, hcahead, hdahead⟩ := h.ahead
  have hrest : ∀ n, c.decision Rule.tables (s.semantics stop) = .shift n → c.rest ≠ [] := by
    intro n hd hnil
    cases hwords with
    | nil => exact decision_ne_shift ((List.cons.inj hcahead).1 ▸ hlast) n hd
    | cons _ _ => simp [hnil] at hcahead
  rcases shifts_or_replaces hstep hm hrest with ⟨-, n, hshift, -⟩ | ⟨f, phrase, belowC, hr⟩
  · have hrow : row c' = c.next.symbol :: row c := by rw [row, hshift.stack]; rfl
    rw [hrow] at hlive
    obtain ⟨n', hdec', hnext, hb, hb'⟩ := h.decision_shift stop' hq hopening hlive hbars hshift.decision
    cases hwords with
    | nil => exact absurd ((List.cons.inj hcahead).1 ▸ hlast) (charted.behind hb).1
    | @cons w w' words words' hw hwords =>
      rw [List.cons_append] at hcahead hdahead
      obtain ⟨hcnext, hcrest⟩ := List.cons.inj hcahead
      obtain ⟨hdnext, hdrest⟩ := List.cons.inj hdahead
      obtain ⟨d', hdstep, hstates, hstack, hahead⟩ := step_shift hdec' (by rw [hdrest]; simp)
      refine ⟨d', hdstep, ⟨n' :: d.state :: ms', ?_, ?_⟩, ⟨w' :: above, ?_, ?_⟩, words, words', last,
        hwords, ?_, hlast, ?_, ?_⟩
      · rw [hrow, hshift.states, hcs]
        exact .push hp hb hb'
      · rw [hstates, hds]
        rfl
      · rw [hshift.stack, hcnext]
        exact .cons hw htwins
      · rw [hstack, hdnext, hdstack]
        rfl
      · exact fun t ht => hfinish t (List.mem_cons_of_mem _ ht)
      · exact hshift.ahead.trans hcrest
      · rw [hahead, hdrest]
  · obtain ⟨made, span, hbuild, hstack'⟩ := hr.built
    have hrow' : row c' = f.lhs :: belowC.map (·.symbol) := by rw [row, hstack']; rfl
    rw [hrow'] at hlive
    have hdec' := h.decision_reduce stop' hq hopening hclosing hlive' hbars hr.mem (Interior.not_mem_wholes hlive)
      hr.decision
    obtain ⟨upper, hpaired, hupper⟩ := h.states
    obtain ⟨d', upper', belowD, payload, span', hdstep, hp', hdstates, hbelows, hdstack', hahead, rfl⟩ :=
      exists_replaces (V := same.Twin) (K := fun payload _ => payload = made) hr hpaired hupper
        (fun _ _ h => h.symbol.symm) htwins hdstack hlength hdec' (fun hp hk => hp.exists_goto charted hq hlive hk)
        fun {phrase' belowD} hphrases hbelows => by
          have hbelow : (belowD ++ opening :: below).head?.map (·.symbol) = some .compose ↔
              belowC.head?.map (·.symbol) = some .compose := by
            cases hbelows with
            | nil => simp [hopening]
            | cons ht _ => simp [ht.symbol]
          have htwins : same.Twins ⟨phrase, _⟩ ⟨phrase', (belowD ++ opening :: below).head?.map (·.symbol)⟩ :=
            ⟨hphrases, hbelow⟩
          have hmakes := (Makes.of_build hbuild).translate (Translation.sound_same s) htwins
          rw [Translation.payload_same] at hmakes
          obtain ⟨names, hnames⟩ := hmakes.builds d.memo
          exact ⟨made, names, rfl, hnames⟩
    refine ⟨d', hdstep, ⟨upper', hp', hdstates⟩, ⟨_ :: belowD, ?_, hdstack'⟩, words, words', last, hwords, hfinish, hlast,
      hr.ahead.trans hcahead, hahead.trans hdahead⟩
    rw [hstack']
    exact .cons ⟨rfl, rfl, (Translation.payload_same _).symm, trivial⟩ hbelows

/-- As long as an expression is read alone, it is read between parentheses. -/
theorem Inside.leads (stop' : Position) (hq : q ∈ interiors Rule.tables) (hopening : opening.symbol = .leftParen)
    (hclosing : closing.symbol = .rightParen) (hlength : states.length = below.length + 1) {n : Nat}
    {e : Config Token (List String)} (hm : Moves Rule.grammar (s.semantics stop) n c e) (hlive : exceeds (row e) = false)
    (hbars : ∀ j < n, ∀ y, Leads Rule.tables (s.semantics stop) j c y → s.BarsAlike stop below y)
    (h : Inside q states opening below closing rest c d) :
    ∃ d', Leads Rule.tables (s.semantics stop') n d d' ∧ Inside q states opening below closing rest e d' := by
  induction hm generalizing d with
  | refl => exact ⟨d, .refl d, h⟩
  | @go n c c' e hstep hm hmoves ih =>
    have hlive' := exceeds_before_moves hmoves hlive
    obtain ⟨d', hdstep, hinside⟩ := h.go stop' hq hopening hclosing hlength hstep hm hlive'
      (hbars 0 (Nat.succ_pos n) c (.refl c))
    obtain ⟨d'', hleads, hend⟩ := ih hlive (fun j hj y hy => hbars (j + 1) (Nat.succ_lt_succ hj) y (.go hstep hy)) hinside
    exact ⟨d'', .go hdstep hleads, hend⟩

end

end Setting

end Formula
