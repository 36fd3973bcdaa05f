import Formula.Proofs.Expr.Depth
import Formula.Proofs.Expr.Isolation
import Formula.Proofs.Expr.Kinds

/-!
# An interval behind the name of a set

What the parser does with an interval behind the name of a set and a bar is what it does with the interval alone. The
states are not the same: alone, the parser also expects expressions. But they differ above few rows of symbols only
(`Domain.front`), and there the tables agree on every symbol that an interval can go on with (`Domain.agrees`). This is
computed once (`Domain.chart`). So both parsers move in step until the interval is complete (`Setting.InDomain.leads`).
-/

namespace Formula

open Interior (Paired behind? charted kindred walk)
open LR (Action Config Leads Move Moves Tables)
open Text (Position)

namespace Domain

/-! ## Rows that no interval comes of -/

/-- From its bottom on, the row is none that an interval begins with: it does not begin with a bracket, or the bracket
is closed behind one expression. -/
def leavesFrom : List Symbol → Bool
  | [] => false
  | x :: row =>
    x ∉ [Symbol.leftParen, .leftBracket] ||
      [[Symbol.expression, .rightParen], [.expression, .rightBracket]].contains (row.take 2)

/-- What is on the stack cannot become an interval. -/
def leaves (row : List Symbol) : Bool := leavesFrom row.reverse

theorem take_two_append {row : List Symbol} (h : (row.take 2).length = 2) (above : List Symbol) :
    (row ++ above).take 2 = row.take 2 := by
  rw [List.length_take] at h
  exact List.take_append_of_le_length (by omega)

theorem leavesFrom_append {row : List Symbol} (h : leavesFrom row = true) (above : List Symbol) :
    leavesFrom (row ++ above) = true := by
  cases row with
  | nil => cases h
  | cons x row =>
    simp only [leavesFrom, List.cons_append, Bool.or_eq_true, decide_eq_true_eq, List.contains_iff_mem] at h ⊢
    refine h.imp_right fun h => ?_
    have hlength : (row.take 2).length = 2 := by
      rcases List.mem_pair.mp h with h | h <;> rw [h] <;> rfl
    rwa [take_two_append hlength]

theorem leaves_cons {row : List Symbol} (x : Symbol) (h : leaves row = true) : leaves (x :: row) = true := by
  unfold leaves at h ⊢
  rw [List.reverse_cons]
  exact leavesFrom_append h [x]

theorem leaves_tail {row : List Symbol} {x : Symbol} (h : leaves (x :: row) = false) : leaves row = false := by
  cases hrow : leaves row with
  | false => rfl
  | true =>
    rw [leaves_cons x hrow] at h
    cases h

/-- A reduction does not lead back. -/
theorem leaves_reduce {f : Rule.Form} (hf : f ∈ Rule.table) {row : List Symbol}
    (h : leaves (f.rhs.reverse ++ row) = true) : leaves (f.lhs :: row) = true := by
  have hlhs : ∀ f ∈ Rule.table, leavesFrom [f.lhs] = true := by decide
  have hrhs : ∀ f ∈ Rule.table, f.rhs.take 2 ∉ [[Symbol.expression, .rightParen], [.expression, .rightBracket]] ∧
      f.rhs.head? ∉ [some Symbol.rightParen, some .rightBracket] := by
    decide
  obtain ⟨htwo, hhead⟩ := hrhs f hf
  unfold leaves at h ⊢
  rw [List.reverse_append, List.reverse_reverse] at h
  rw [List.reverse_cons]
  cases hrow : row.reverse with
  | nil => exact hlhs f hf
  | cons x before =>
    rw [hrow] at h
    simp only [leavesFrom, List.cons_append, Bool.or_eq_true, decide_eq_true_eq, List.contains_iff_mem] at h ⊢
    refine h.imp_right fun h => ?_
    match before, h with
    | [], h => exact absurd h htwo
    | [y], h =>
      -- the second symbol is the first one of the right-hand side
      cases hf : f.rhs with
      | nil =>
        rw [hf] at h
        rcases List.mem_pair.mp h with h | h <;> cases h
      | cons z zs =>
        rw [hf] at h hhead
        refine absurd ?_ hhead
        rcases List.mem_pair.mp h with h | h <;> cases h <;> simp
    | y :: z :: before, h => exact h

/-! ## What the tables say -/

section

variable (t : Tables)

/-- The rows that an interval begins with above which the states are not the same at the start of a text and behind the
name of a set. -/
def front : List (List Symbol) :=
  [[], [.leftParen], [.expression, .leftParen], [.leftBracket], [.expression, .leftBracket]]

/-- Above a row in front, the action behind the name of a set is the one at the start of a text, as far as the row still
becomes an interval, and except for states that are in front again. No phrase ends there. -/
def agrees (row : List Symbol) (x : Symbol) (a a' : Action) : Bool :=
  match a with
  | .error => true
  | .shift _ | .goto _ => leaves (x :: row) || kindred a a' && (front.contains (x :: row) || a == a')
  | _ => false

/-- The two states above a row in front. -/
def agreeAbove (q : Nat) (row : List Symbol) : Bool :=
  match walk t 0 row, walk t q row with
  | some m, some m' => Symbol.all.all fun x => agrees row x (t.lookup m x.index) (t.lookup m' x.index)
  | _, _ => false

/-- Behind a name at the start of a text, a bar is shifted, or the name is reduced. -/
def opens (n q : Nat) : Bool :=
  t.lookup 0 Symbol.identifier.index == .shift n &&
    match t.lookup n Symbol.bar.index with
    | .ambiguous k => t.choice k == (.shift q, .reduce Rule.identifier.index)
    | _ => false

/-- At the end of a text, an interval behind the name of a set is reduced with it to what is accepted. -/
def ends (q : Nat) : Bool :=
  match t.lookup q Symbol.interval.index, t.lookup 0 Symbol.equation.index with
  | .goto r, .goto e =>
    t.lookup r Symbol.finish.index == .reduce Rule.setInterval.index && t.lookup e Symbol.finish.index == .accept
  | _, _ => false

/-- What is computed of the tables. -/
def known : Bool :=
  match walk t 0 [.identifier], walk t 0 [.bar, .identifier] with
  | some n, some q => opens t n q && front.all (agreeAbove t q) && ends t q
  | _, _ => false

end

/-- What is known of the state behind the name of a set, and of the one behind the bar. -/
structure Charted (t : Tables) (n q : Nat) : Prop where
  name : t.lookup 0 Symbol.identifier.index = .shift n
  bar : ∃ k, t.lookup n Symbol.bar.index = .ambiguous k ∧ t.choice k = (.shift q, .reduce Rule.identifier.index)
  agrees : ∀ row ∈ front, ∃ m m', walk t 0 row = some m ∧ walk t q row = some m' ∧
    ∀ x, agrees row x (t.lookup m x.index) (t.lookup m' x.index) = true
  ends : ∃ r e, t.lookup q Symbol.interval.index = .goto r ∧
    t.lookup r Symbol.finish.index = .reduce Rule.setInterval.index ∧ t.lookup 0 Symbol.equation.index = .goto e ∧
    t.lookup e Symbol.finish.index = .accept

theorem exists_charted_of_known {t : Tables} (h : known t = true) : ∃ n q, Charted t n q := by
  unfold known at h
  split at h
  · rename_i n q _ _
    simp only [Bool.and_eq_true, List.all_eq_true] at h
    obtain ⟨⟨hopens, hfront⟩, hends⟩ := h
    rw [opens, Bool.and_eq_true, beq_iff_eq] at hopens
    refine ⟨n, q, hopens.1, ?_, fun row hrow => ?_, ?_⟩
    · have hbar := hopens.2
      split at hbar
      · rename_i k hk
        exact ⟨k, hk, beq_iff_eq.mp hbar⟩
      · cases hbar
    · have hrow := hfront row hrow
      unfold agreeAbove at hrow
      split at hrow
      · rename_i m m' hm hm'
        exact ⟨m, m', hm, hm', fun x => List.all_eq_true.mp hrow x (Interior.mem_all x)⟩
      · cases hrow
    · unfold ends at hends
      split at hends
      · rename_i r e hr he
        rw [Bool.and_eq_true, beq_iff_eq, beq_iff_eq] at hends
        exact ⟨r, e, hr, hends.1, he, hends.2⟩
      · cases hends
  · cases h

-- one evaluation, so that the tables are computed once
theorem chart : known Rule.tables = true := by
  decide +kernel

theorem exists_charted : ∃ n q, Charted Rule.tables n q := exists_charted_of_known chart

section

variable {t : Tables} {n q : Nat} {row : List Symbol} {x : Symbol} {a a' : Action}

theorem exists_of_agrees (h : agrees row x a a' = true) (ha : a ≠ .error) (hrow : leaves (x :: row) = false) :
    kindred a a' = true ∧ (x :: row ∉ front → a = a') := by
  unfold agrees at h
  split at h
  · exact absurd rfl ha
  · rw [hrow, Bool.false_or, Bool.and_eq_true, Bool.or_eq_true, beq_iff_eq, List.contains_iff_mem] at h
    exact ⟨h.1, h.2.resolve_left⟩
  · rw [hrow, Bool.false_or, Bool.and_eq_true, Bool.or_eq_true, beq_iff_eq, List.contains_iff_mem] at h
    exact ⟨h.1, h.2.resolve_left⟩
  · cases h

theorem not_agrees (h : agrees row x a a' = true) : (∀ p, a ≠ .reduce p) ∧ ∀ k, a ≠ .ambiguous k := by
  constructor
  · rintro p rfl
    cases h
  · rintro k rfl
    cases h

/-- Above other rows than those in front the states are the same. -/
theorem Charted.eq_of_paired (ht : Charted t n q) {m m' : Nat} {ms ms' : List Nat}
    (h : Paired t q row (m :: ms) (m' :: ms')) (hrow : leaves row = false) (hother : row ∉ front) : m = m' := by
  refine h.eq_of_behind?_eq (by decide) (fun _ _ => leaves_tail) ?_ hrow hother
  intro row hbelow m m' hw hw' x n n' hrow hother hn hn'
  obtain ⟨k, k', hk, hk', hagrees⟩ := ht.agrees row hbelow
  obtain rfl := Option.some.inj (hk.symm.trans hw)
  obtain rfl := Option.some.inj (hk'.symm.trans hw')
  have ha := hagrees x
  have herror : t.lookup k x.index ≠ .error := by
    intro hl
    rw [behind?, hl] at hn
    cases hn
  have hsame := (exists_of_agrees ha herror hrow).2 hother
  unfold behind? at hn hn'
  rw [← hsame] at hn'
  exact Option.some.inj (hn.symm.trans hn')

/-- Where the one stack can go on behind a nonterminal, the other one can too. -/
theorem Charted.exists_goto (ht : Charted t n q) {m m' : Nat} {ms ms' : List Nat}
    (h : Paired t q row (m :: ms) (m' :: ms')) (hrow : leaves (x :: row) = false) {k : Nat}
    (hl : t.lookup m x.index = .goto k) : ∃ k', t.lookup m' x.index = .goto k' := by
  by_cases hfront : row ∈ front
  · obtain ⟨i, i', hi, hi', hagrees⟩ := ht.agrees row hfront
    obtain ⟨hw, hw'⟩ := h.walk_eq
    obtain rfl := Option.some.inj (hi.symm.trans hw)
    obtain rfl := Option.some.inj (hi'.symm.trans hw')
    have ha := hagrees x
    rw [hl] at ha
    obtain ⟨hkindred, -⟩ := exists_of_agrees ha (by simp) hrow
    cases hl' : t.lookup i' x.index with
    | goto k' => exact ⟨k', rfl⟩
    | _ =>
      rw [hl'] at hkindred
      cases hkindred
  · rw [← ht.eq_of_paired h (leaves_tail hrow) hfront]
    exact ⟨k, hl⟩

end

end Domain

namespace Setting

open Domain (leaves front)

variable {s : Setting} {stop stop' : Position} {c c' d : Config Token (List String)}

theorem leaves_before_move (hm : Move Rule.grammar (s.semantics stop) c c') (h : leaves (row c') = false) :
    leaves (row c) = false := by
  cases hc : leaves (row c) with
  | false => rfl
  | true =>
    have := row_preserves (P := (leaves · = true)) (fun x _ h => Domain.leaves_cons x h)
      (fun _ hf _ h => Domain.leaves_reduce hf h) hm hc
    rw [this] at h
    cases h

theorem leaves_before_moves {n : Nat} (hm : Moves Rule.grammar (s.semantics stop) n c c') (h : leaves (row c') = false) :
    leaves (row c) = false := by
  induction hm with
  | refl => exact h
  | go _ hm _ ih => exact leaves_before_move hm (ih h)

/-- What an interval begins with is no name. -/
theorem openBars_of_leaves {row : List Symbol} (h : leaves row = false) : Bars.openBars row = row.count .bar := by
  unfold Bars.openBars
  split
  · rename_i rest he
    unfold leaves at h
    rw [he] at h
    simp [Domain.leavesFrom] at h
  · rw [List.count_reverse]

/-- The bar behind the name of a set does not count. -/
theorem openBars_append_domain (row : List Symbol) :
    Bars.openBars (row ++ [.bar, .identifier]) = row.count .bar := by
  unfold Bars.openBars
  rw [List.reverse_append]
  exact List.count_reverse

/-- A parser that reads an interval alone, and one that reads it behind the name of a set and a bar. -/
structure InDomain (q : Nat) (states : List Nat) (below : List Token) (c d : Config Token (List String)) : Prop where
  states : ∃ upper, Paired Rule.tables q (row c) c.states upper ∧ d.states = upper ++ states
  stack : ∃ above, List.Forall₂ (Token.Matches Token.SameReading) c.stack above ∧ d.stack = above ++ below
  ahead : List.Forall₂ Token.SameReading c.ahead d.ahead
  ends : c.ahead.getLast?.map (·.symbol) = some .finish
  memo : d.memo = c.memo

namespace InDomain

variable {n q : Nat} {states : List Nat} {below : List Token}

theorem next (h : InDomain q states below c d) : c.next.SameReading d.next :=
  (List.forall₂_cons.mp h.ahead).1

theorem rest (h : InDomain q states below c d) : List.Forall₂ Token.SameReading c.rest d.rest :=
  (List.forall₂_cons.mp h.ahead).2

/-- In front of a token that is shifted there is another. -/
theorem rest_ne_nil (h : InDomain q states below c d) {m : Nat}
    (hd : c.decision Rule.tables (s.semantics stop) = .shift m) : c.rest ≠ [] := by
  intro hnil
  have hends := h.ends
  rw [Config.ahead, hnil] at hends
  exact decision_ne_shift (Option.some.inj hends) m hd

theorem tops (h : InDomain q states below c d) :
    ∃ ms ms', Paired Rule.tables q (row c) (c.state :: ms) (d.state :: ms') ∧ c.states = c.state :: ms ∧
      d.states = d.state :: (ms' ++ states) := by
  obtain ⟨upper, hp, hd⟩ := h.states
  exact exists_tops hp hd

theorem row_eq (h : InDomain q states below c d) (hbelow : below.map (·.symbol) = [.bar, .identifier]) :
    row d = row c ++ [.bar, .identifier] := by
  obtain ⟨above, hmatches, hd⟩ := h.stack
  rw [row, hd, List.map_append, hbelow, ← map_symbol_of_forall₂ (fun _ _ h => h.symbol) hmatches]
  rfl

/-- The cells of the two parsers, above a row in front. -/
theorem agrees (hq : Domain.Charted Rule.tables n q) (h : InDomain q states below c d) (hrow : row c ∈ front)
    (x : Symbol) :
    Domain.agrees (row c) x (Rule.tables.lookup c.state x.index) (Rule.tables.lookup d.state x.index) = true := by
  obtain ⟨ms, ms', hp, -, -⟩ := h.tops
  obtain ⟨m, m', hm, hm', hagrees⟩ := hq.agrees _ hrow
  obtain ⟨hw, hw'⟩ := hp.walk_eq
  obtain rfl := Option.some.inj (hm.symm.trans hw)
  obtain rfl := Option.some.inj (hm'.symm.trans hw')
  exact hagrees x

theorem state_eq (hq : Domain.Charted Rule.tables n q) (h : InDomain q states below c d) (hlive : leaves (row c) = false)
    (hrow : row c ∉ front) : d.state = c.state := by
  obtain ⟨ms, ms', hp, -, -⟩ := h.tops
  exact (hq.eq_of_paired hp hlive hrow).symm

/-- In the same state both parsers decide the same. The only bar that one of them has more belongs to the set. -/
theorem decision_eq (s : Setting) (stop stop' : Position) (hq : Domain.Charted Rule.tables n q)
    (hbelow : below.map (·.symbol) = [.bar, .identifier]) (h : InDomain q states below c d)
    (hlive : leaves (row c) = false) (hrow : row c ∉ front) :
    d.decision Rule.tables (s.semantics stop') = c.decision Rule.tables (s.semantics stop) := by
  have hstate := h.state_eq hq hlive hrow
  have hnext : d.next.symbol = c.next.symbol := h.next.symbol.symm
  by_cases hambiguous : ∃ k, Rule.tables.lookup c.state c.next.symbol.index = .ambiguous k
  · obtain ⟨k, hl⟩ := hambiguous
    obtain ⟨hx, m, p, hk, -, hname⟩ := charted.ambiguous hl
    have hname : (Rule.form? p).all (·.rule != .identifier) = true := by
      refine hname.resolve_right fun hm => ?_
      obtain ⟨ms, ms', hp, -, -⟩ := h.tops
      have hne : row c ≠ [] := fun hnil => hrow (by rw [hnil]; decide)
      rw [hp.eq_singleton charted hne hm] at hlive
      cases hlive
    have hl' : Rule.tables.lookup d.state d.next.symbol.index = .ambiguous k := by rw [hstate, hnext, hl]
    have hopen : Bars.openBars (d.stack.map (·.symbol)) = Bars.openBars (c.stack.map (·.symbol)) := by
      show Bars.openBars (row d) = Bars.openBars (row c)
      rw [h.row_eq hbelow, openBars_append_domain, openBars_of_leaves hlive]
    rw [decision_of_ambiguous hl, decision_of_ambiguous hl', hnext, hx, Bars.choose_bar hk hname,
      Bars.choose_bar hk hname, hopen]
  · have hne : ∀ k, Rule.tables.lookup c.state c.next.symbol.index ≠ .ambiguous k := fun k hl => hambiguous ⟨k, hl⟩
    rw [decision_of_lookup rfl hne]
    exact decision_of_lookup (by rw [hstate, hnext]) hne

/-- What is shifted in the interval alone is shifted behind the name of a set. -/
theorem decision_shift (stop' : Position) (hq : Domain.Charted Rule.tables n q)
    (hbelow : below.map (·.symbol) = [.bar, .identifier]) (h : InDomain q states below c d)
    (hlive : leaves (c.next.symbol :: row c) = false) {m : Nat}
    (hc : c.decision Rule.tables (s.semantics stop) = .shift m) :
    ∃ m', d.decision Rule.tables (s.semantics stop') = .shift m' ∧
      behind? Rule.tables c.state c.next.symbol = some m ∧ behind? Rule.tables d.state c.next.symbol = some m' := by
  have hbehind := behind?_of_shift hc
  by_cases hrow : row c ∈ front
  · have ha := h.agrees hq hrow c.next.symbol
    have hl := (lookup_of_shift hc).resolve_right fun ⟨k, hl⟩ => (Domain.not_agrees ha).2 k hl
    rw [hl] at ha
    obtain ⟨hkindred, -⟩ := Domain.exists_of_agrees ha (by simp) hlive
    cases hl' : Rule.tables.lookup d.state c.next.symbol.index with
    | shift m' =>
      refine ⟨m', decision_of_lookup ?_ (by simp), hbehind, Interior.behind?_of_shift hl'⟩
      rw [← h.next.symbol, hl']
    | _ =>
      rw [hl'] at hkindred
      cases hkindred
  · have hd := h.decision_eq s stop stop' hq hbelow (Domain.leaves_tail hlive) hrow
    exact ⟨m, hd.trans hc, hbehind, h.state_eq hq (Domain.leaves_tail hlive) hrow ▸ hbehind⟩

/-- By what the interval alone is reduced is reduced behind the name of a set. -/
theorem decision_reduce (stop' : Position) (hq : Domain.Charted Rule.tables n q)
    (hbelow : below.map (·.symbol) = [.bar, .identifier]) (h : InDomain q states below c d)
    (hlive : leaves (row c) = false) {p : Nat} (hc : c.decision Rule.tables (s.semantics stop) = .reduce p) :
    d.decision Rule.tables (s.semantics stop') = .reduce p := by
  by_cases hrow : row c ∈ front
  · have hno := Domain.not_agrees (h.agrees hq hrow c.next.symbol)
    rcases lookup_of_reduce hc with hl | ⟨k, hl, -⟩
    · exact absurd hl (hno.1 p)
    · exact absurd hl (hno.2 k)
  · rw [h.decision_eq s stop stop' hq hbelow hlive hrow, hc]

/-- Only a name is built in one way or another by what is below it. -/
theorem build_congr_below {r : Rule} (hr : r ≠ .identifier) (tokens : List Token) (below below' : Option Symbol) :
    s.build ⟨tokens, below⟩ r = s.build ⟨tokens, below'⟩ r := by
  cases r <;> first | rfl | exact absurd rfl hr

/-- What a rule builds in the interval alone it builds behind the name of a set. -/
theorem build_eq {f : Rule.Form} (hf : f ∈ Rule.table) {phrase phrase' belowC belowD : List Token}
    (hphrase : phrase.map (·.symbol) = f.rhs)
    (hmatches : List.Forall₂ (Token.Matches Token.SameReading) phrase phrase')
    (hbelow : f.rule = .identifier → belowC.head?.map (·.symbol) = belowD.head?.map (·.symbol)) {names names' : List String}
    {payload : Payload} (hbuild : s.build ⟨phrase, belowC.head?.map (·.symbol)⟩ f.rule names = (.ok payload, names')) :
    s.build ⟨phrase', belowD.head?.map (·.symbol)⟩ f.rule names = (.ok payload, names') := by
  have hphrases : Phrase.Matches Token.SameReading f.rhs ⟨phrase, belowC.head?.map (·.symbol)⟩
      ⟨phrase', belowC.head?.map (·.symbol)⟩ := ⟨hphrase, hmatches, rfl⟩
  have hconcur := concur_build (likeness_of_sameReading s) hf hphrases names
  rw [hbuild] at hconcur
  have hsame : s.build ⟨phrase', belowC.head?.map (·.symbol)⟩ f.rule names = (.ok payload, names') := by
    generalize s.build ⟨phrase', belowC.head?.map (·.symbol)⟩ f.rule names = answer at hconcur ⊢
    cases hconcur with
    | ok h => rw [h]
  by_cases hr : f.rule = .identifier
  · rw [← hbelow hr, hsame]
  · rw [build_congr_below hr _ _ (belowC.head?.map (·.symbol)), hsame]

/-- A reduction in the interval alone is one behind the name of a set, if the parser can go on from the state below the
phrase. -/
theorem replaces (stop' : Position) (hq : Domain.Charted Rule.tables n q)
    (hbelow : below.map (·.symbol) = [.bar, .identifier]) (hlength : states.length = below.length)
    (h : InDomain q states below c d) {f : Rule.Form} {phrase belowC : List Token}
    (hr : s.Replaces stop f phrase belowC c c') (hlive : leaves (row c) = false)
    (hgoto : ∀ {b b' bl bl' k}, Paired Rule.tables q (belowC.map (·.symbol)) (b :: bl) (b' :: bl') →
      Rule.tables.lookup b f.lhs.index = .goto k → ∃ k', Rule.tables.lookup b' f.lhs.index = .goto k') :
    ∃ d', d.step Rule.tables (s.semantics stop') = .go d' ∧ InDomain q states below c' d' := by
  have hlhs : ∀ f ∈ Rule.table, f.lhs.isTerminal = false := by decide
  have hone : ∀ f ∈ Rule.table, f.rule = .identifier → f.rhs = [.identifier] := by decide
  obtain ⟨above, hmatches, hdstack⟩ := h.stack
  obtain ⟨upper, hp, hds⟩ := h.states
  obtain ⟨made, span, hbuild, hstack⟩ := hr.built
  obtain ⟨d', upper', belowD, payload, span', hstep, hp', hdstates, hbelows, hdstack', hahead, rfl, hmemo⟩ :=
    exists_replaces (V := Token.Matches Token.SameReading) (K := fun payload names => payload = made ∧ names = c'.memo)
      hr hp hds (fun _ _ h => h.symbol) hmatches hdstack hlength
      (h.decision_reduce stop' hq hbelow hlive hr.decision) hgoto
      fun {phrase' belowD} hphrases hbelows => by
        refine ⟨made, c'.memo, ⟨rfl, rfl⟩, ?_⟩
        rw [h.memo]
        refine build_eq hr.mem hr.symbols hphrases (fun hname => ?_) hbuild
        cases hbelows with
        | cons ht _ => exact congrArg some ht.symbol
        | nil =>
          -- a name at the bottom is not what an interval begins with
          rw [row, hr.stack, List.append_nil, List.map_reverse, hr.symbols, hone f hr.mem hname] at hlive
          cases hlive
  refine ⟨d', hstep, ⟨upper', hp', hdstates⟩, ⟨_ :: belowD, ?_, hdstack'⟩, ?_, by rw [hr.ahead, h.ends], hmemo⟩
  · rw [hstack]
    exact .cons ⟨rfl, fun h => absurd h (by rw [hlhs f hr.mem]; decide), fun _ => rfl⟩ hbelows
  · rw [hr.ahead, hahead]
    exact h.ahead

/-- A move in the interval alone is one behind the name of a set. -/
theorem go (stop' : Position) (hq : Domain.Charted Rule.tables n q)
    (hbelow : below.map (·.symbol) = [.bar, .identifier]) (hlength : states.length = below.length)
    (h : InDomain q states below c d) (hstep : c.step Rule.tables (s.semantics stop) = .go c')
    (hm : Move Rule.grammar (s.semantics stop) c c') (hlive : leaves (row c') = false) :
    ∃ d', d.step Rule.tables (s.semantics stop') = .go d' ∧ InDomain q states below c' d' := by
  rcases shifts_or_replaces hstep hm (fun _ hd => h.rest_ne_nil hd) with
    ⟨hterminal, m, hshift, hmemo⟩ | ⟨f, phrase, belowC, hr⟩
  · obtain ⟨above, hmatches, hdstack⟩ := h.stack
    obtain ⟨ms, ms', hp, hcs, hds⟩ := h.tops
    have hrow : row c' = c.next.symbol :: row c := by rw [row, hshift.stack]; rfl
    obtain ⟨m', hdec, hb, hb'⟩ := h.decision_shift stop' hq hbelow (hrow ▸ hlive) hshift.decision
    have hrest := h.rest_ne_nil hshift.decision
    have hdrest : d.rest ≠ [] := fun hnil => hrest (List.forall₂_nil_right_iff.mp (hnil ▸ h.rest))
    obtain ⟨d', hdstep, hdshift, hdmemo⟩ := exists_shifts hdec hdrest
    refine ⟨d', hdstep, ⟨m' :: d.state :: ms', ?_, ?_⟩, ⟨d.next :: above, ?_, ?_⟩, ?_, ?_, ?_⟩
    · rw [hrow, hshift.states, hcs]
      exact .push hp hb hb'
    · rw [hdshift.states, hds]
      rfl
    · rw [hshift.stack]
      exact .cons ⟨h.next.symbol, fun _ => h.next, fun hn => absurd hterminal (by rw [hn]; decide)⟩ hmatches
    · rw [hdshift.stack, hdstack]
      rfl
    · rw [hshift.ahead, hdshift.ahead]
      exact h.rest
    · obtain ⟨x, xs, hxs⟩ := List.exists_cons_of_ne_nil hrest
      have hends := h.ends
      rw [Config.ahead, hxs, List.getLast?_cons_cons, ← hxs] at hends
      rw [hshift.ahead, hends]
    · rw [hdmemo, hmemo, h.memo]
  · obtain ⟨_, _, -, hstack⟩ := hr.built
    have hrow : row c' = f.lhs :: belowC.map (·.symbol) := by rw [row, hstack]; rfl
    exact h.replaces stop' hq hbelow hlength hr (leaves_before_move hm hlive) fun hp hk =>
      hq.exists_goto hp (hrow ▸ hlive) hk

/-- Until the interval is complete, it is read behind the name of a set as it is alone. -/
theorem leads (stop' : Position) (hq : Domain.Charted Rule.tables n q)
    (hbelow : below.map (·.symbol) = [.bar, .identifier]) (hlength : states.length = below.length) {k : Nat}
    {e : Config Token (List String)} (hm : Moves Rule.grammar (s.semantics stop) k c e)
    (hlive : leaves (row e) = false)
    (h : InDomain q states below c d) :
    ∃ d', Leads Rule.tables (s.semantics stop') k d d' ∧ InDomain q states below e d' := by
  induction hm generalizing d with
  | refl => exact ⟨d, .refl d, h⟩
  | @go k c c' e hstep hmove hmoves ih =>
    obtain ⟨d', hdstep, h'⟩ := h.go stop' hq hbelow hlength hstep hmove
      (leaves_before_moves hmoves hlive)
    obtain ⟨d'', hleads, hend⟩ := ih hlive h'
    exact ⟨d'', .go hdstep hleads, hend⟩

end InDomain

end Setting

end Formula
