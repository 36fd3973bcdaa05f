import Formula.Proofs.Expr.Binders

/-!
# Reading whole texts

Relations, intervals and definitions stand for a whole text and nowhere inside one. Each is parsed when its parts are
read at the places that it has for them: two sides around the sign of a relation, two ends behind a bracket and behind a
comma, and the parameters and the body of a definition.
-/

namespace Formula

open Rule (Shifts ShiftsAll Gotos Reduces)
open Text (Position)

/-- The bracket that an interval begins with. -/
def Lexeme.opening (square : Bool) : Lexeme := if square then ⟨.leftBracket, "["⟩ else ⟨.leftParen, "("⟩

/-- The bracket that an interval ends with. -/
def Lexeme.closing (square : Bool) : Lexeme := if square then ⟨.rightBracket, "]"⟩ else ⟨.rightParen, ")"⟩

/-- An interval with square brackets or round ones. -/
def Expr.span (square : Bool) (a b : Expr) (square' : Bool) : Expr :=
  .interval (if square then '[' else '(') a b (if square' then ']' else ')')

namespace Setting

variable {s : Setting} {level : Nat} {tokens : List Token} {position : Position}

-- so that states are compared by name and the tables are not computed
attribute [local irreducible] Place.follow Rule.reduction? Rule.tables Rule.ShiftsAll

/-- The end of the input stands behind everything. -/
theorem finish_follows (position : Position) (level : Nat) : (Token.finish position).symbol.Follows level :=
  ⟨0, rfl, Nat.zero_le _⟩

/-- What the start of an equation leads to. -/
theorem admits_start {next : Token} (hf : next.symbol.Follows level) (hb : next.symbol ≠ .bar) :
    Admits .start level [] [] next :=
  ⟨Nat.zero_le _, hf, rfl, rfl, .of_ne hb []⟩

variable (tokens) in
/-- A phrase that is a whole equation is accepted. -/
theorem Goes.parse_equation {e : Expr} {n q : Nat} {r : Rule} (phrase : List Token) (above : List Nat)
    {rhs : List Symbol} {prec : Option LR.Prec}
    (h : s.Goes (stopOf (tokens ++ [.finish position])) n ⟨[Place.start.state], [], tokens ++ [.finish position]⟩
      ⟨q :: (above ++ [Place.start.state]), phrase.reverse, [.finish position]⟩)
    (hform : Rule.form? r.index = some ⟨r, .equation, rhs, prec⟩) (hp : phrase.length = rhs.length)
    (ha : above.length + 1 = rhs.length) (hr : Reduces q .finish r) (hb : s.Builds ⟨phrase, none⟩ r (.expr e))
    (hn : n ≤ 3 * tokens.length + 1) (names : List String) :
    (s.parseTokens .equation (tokens ++ [.finish position]) names).result = .ok e.classify := by
  obtain ⟨-, hgoto, haccept⟩ := Place.chart_goal
  have hstart : Admits .start 0 [] [] (.finish position) := admits_start (finish_follows _ _) (by simp [Token.finish])
  obtain ⟨u, -, hu, hstep⟩ :=
    hstart.reduce (stopOf (tokens ++ [.finish position])) [] r phrase above hform hp ha hr hb hgoto
  rw [List.append_nil] at hstep
  have hrun := h.trans hstep
  rw [Place.state_start] at hrun
  exact Goes.parseTokens_eq .equation hrun haccept (by omega) hu names

/-! ## Relations -/

/-- A relation is parsed when its sides are read. -/
theorem Reads.parse_relation {op : Relation} {lhs lhs' : Symbol} {ls signs ls' : List Lexeme} {a b : Expr}
    (ha : s.Reads (stopOf (tokens ++ [.finish position])) 0 lhs ls a) (hlhs : lhs ∈ operandHeads)
    (hb : s.Reads (stopOf (tokens ++ [.finish position])) 0 lhs' ls' b) (hlhs' : lhs' ∈ operandHeads)
    (hsigns : signs.map (·.symbol) = op.tokens) (htokens : tokens.map Token.written = ls ++ (signs ++ ls'))
    (names : List String) :
    (s.parseTokens .equation (tokens ++ [.finish position]) names).result = .ok (Expr.relation op a b).classify := by
  obtain ⟨left, more, rfl, hleft, htokens⟩ := List.map_eq_append_iff.mp htokens
  obtain ⟨marks, right, rfl, hmarks, hright⟩ := List.map_eq_append_iff.mp htokens
  have hmarks : marks.map (·.symbol) = op.tokens := (map_symbol_of_written hmarks).trans hsigns
  have hlength : marks.length = op.tokens.length := by rw [← hmarks, List.length_map]
  obtain ⟨x, xs, hx⟩ : ∃ x xs, op.tokens = x :: xs :=
    List.exists_cons_of_ne_nil (by cases op <;> simp [Relation.tokens])
  obtain ⟨m, ms, rfl, hm, -⟩ := List.map_eq_cons_iff.mp (hmarks.trans hx)
  have hfirst : m.symbol.Follows 0 ∧ m.symbol ≠ .bar ∧ m.symbol ∈ Symbol.closers := by
    have hall : ∀ op ∈ Place.relations, ∀ x ∈ op.tokens.head?, x.floor? = some 0 ∧ x ≠ .bar ∧ x ∈ Symbol.closers := by
      decide
    obtain ⟨hfloor, hrest⟩ := hall op (Place.mem_relations op) x (by rw [hx]; rfl)
    exact ⟨⟨0, by rw [hm, hfloor], Nat.le_refl _⟩, hm ▸ hrest⟩
  obtain ⟨hrelations, -⟩ := Place.chart_statements
  obtain ⟨hshifts, hends⟩ := hrelations op (Place.mem_relations op)
  -- the left side, and the sign
  generalize hstop : stopOf (left ++ (m :: ms ++ right) ++ [.finish position]) = stop at ha hb
  obtain ⟨t, -, ht, n, hn, hgo⟩ := ha.lift (ms ++ (right ++ [.finish position])) hlhs
    (admits_start hfirst.1 hfirst.2.1) (by decide) hfirst.2.2 hleft
  have hinput : right ++ [Token.finish position] ≠ [] := by simp
  obtain ⟨above, habove, hgoSigns⟩ := Goes.shifts s stop (Place.start.after [.expression]) [Place.start.state] [t]
    (hmarks.trans hx) (by rw [← hx]; exact hshifts) hinput
  rw [← hx, Place.follow_relation] at hgoSigns
  -- the right side
  have hentry : ((m :: ms).reverse ++ [t]).head?.map (·.symbol) = Place.entry? (.side op) := by
    rw [List.head?_append_of_ne_nil _ (by simp), List.head?_reverse, ← List.getLast?_map, hmarks]
    cases op <;> rfl
  have hadmits : Admits (.side op) 0 (above ++ Place.start.after [.expression] :: [Place.start.state])
      ((m :: ms).reverse ++ [t]) (.finish position) := by
    refine ⟨Nat.le_refl _, finish_follows _ _, ?_, hentry, .of_ne (by simp [Token.finish]) _⟩
    rw [hx] at hlength
    simp only [List.length_append, List.length_cons, List.length_nil, List.length_reverse] at hlength ⊢
    omega
  obtain ⟨u, -, hu, k, hk, hgoRight⟩ := hb.lift [] hlhs' hadmits (Place.mem_outer (Nat.zero_le _))
    (by simp [Token.finish, Symbol.closers]) hright
  have hform : ∃ prec i, i = op.tokens.length + 1 ∧ (op.rule, op, i) ∈ Rule.relations ∧
      Rule.form? op.rule.index = some ⟨op.rule, .equation, .expression :: (op.tokens ++ [.expression]), prec⟩ := by
    cases op <;> exact ⟨_, _, rfl, by decide, rfl⟩
  obtain ⟨prec, i, rfl, hrule, hform⟩ := hform
  have hbuilds : s.Builds ⟨t :: (m :: ms ++ [u]), none⟩ op.rule (.expr (.relation op a b)) := by
    refine Makes.builds (.relation hrule ⟨t, rfl, ht⟩ ⟨u, ?_, hu⟩)
    rw [List.getElem?_cons_succ, List.getElem?_append_right (Nat.le_of_eq hlength), hlength, Nat.sub_self]
    rfl
  have hrun := (hgo.trans hgoSigns).trans hgoRight
  subst hstop
  refine Goes.parse_equation (left ++ (m :: ms ++ right)) (t :: (m :: ms ++ [u]))
    ((Place.side op).state :: (above ++ [Place.start.after [.expression]])) (by simpa using hrun) hform ?_ ?_
    hends hbuilds ?_ names
  · rw [List.length_cons, List.length_append, hlength]
    simp
  · simp only [List.length_cons, List.length_append, List.length_nil, habove, hx]
  · rw [hx] at hlength
    simp only [List.length_append, List.length_cons] at hlength ⊢
    omega

/-! ## Intervals -/

/-- The rule of an interval. -/
def intervalRule : Bool → Bool → Rule
  | true, true => .closedInterval
  | true, false => .rightOpenInterval
  | false, true => .leftOpenInterval
  | false, false => .openInterval

/-- An interval is parsed when its ends are read. -/
theorem Reads.parse_interval {square square' : Bool} {lhs lhs' : Symbol} {ls ls' : List Lexeme} {a b : Expr}
    (ha : s.Reads (stopOf (tokens ++ [.finish position])) 0 lhs ls a) (hlhs : lhs ∈ operandHeads)
    (hb : s.Reads (stopOf (tokens ++ [.finish position])) 0 lhs' ls' b) (hlhs' : lhs' ∈ operandHeads)
    (htokens : tokens.map Token.written =
      Lexeme.opening square :: (ls ++ .mark .comma :: (ls' ++ [Lexeme.closing square'])))
    (names : List String) :
    (s.parseTokens .equation (tokens ++ [.finish position]) names).result = .ok (Expr.span square a b square') := by
  obtain ⟨l, more, rfl, hl, htokens⟩ := List.map_eq_cons_iff.mp htokens
  obtain ⟨left, more, rfl, hleft, htokens⟩ := List.map_eq_append_iff.mp htokens
  obtain ⟨m, more, rfl, hm, htokens⟩ := List.map_eq_cons_iff.mp htokens
  obtain ⟨right, last, rfl, hright, hlast⟩ := List.map_eq_append_iff.mp htokens
  obtain ⟨r, rfl, hr⟩ := List.map_eq_singleton_iff.mp hlast
  have hm := written_mark (by decide) hm
  have hlsymbol : l.symbol = (Lexeme.opening square).symbol := congrArg Lexeme.symbol hl
  have hrsymbol : r.symbol = (Lexeme.closing square').symbol := congrArg Lexeme.symbol hr
  obtain ⟨-, hbracket, hends, hclosed, hrightOpen, hleftOpen, hopen, hgoto, hbare⟩ := Place.chart_statements
  obtain ⟨hcomma, hcloses⟩ := hends square
  generalize hstop : stopOf (l :: (left ++ m :: (right ++ [r])) ++ [.finish position]) = stop at ha hb
  -- the first end
  obtain ⟨q, hq, hentry, hshiftl, hcomma⟩ : ∃ q : Place, q.level = 0 ∧ q.entry? = some l.symbol ∧
      Shifts Place.start.state l.symbol q.state ∧
      Shifts (q.after [.expression]) .comma (Place.endpoint square).state := by
    rw [hlsymbol]
    cases square with
    | true => exact ⟨.firstBracket, rfl, rfl, hbracket, hcomma⟩
    | false => exact ⟨.firstParen, rfl, rfl, (Place.chart_brackets.1 .start Place.start.mem_all).1, hcomma⟩
  have hshiftl : s.Goes stop 1
      ⟨[Place.start.state], [], l :: (left ++ m :: (right ++ [r, .finish position]))⟩
      ⟨[q.state, Place.start.state], [l], left ++ m :: (right ++ [r, .finish position])⟩ :=
    Goes.shift_append hshiftl
  have hm0 : m.symbol.Follows 0 := by
    rw [hm]
    exact ⟨0, rfl, Nat.le_refl _⟩
  have hfirst : Admits q 0 [Place.start.state] [l] m :=
    ⟨Nat.le_of_eq hq, hm0, rfl, hentry.symm, .of_ne (by rw [hm]; decide) _⟩
  obtain ⟨t, -, ht, n, hn, hgoLeft⟩ := ha.lift (right ++ [r, .finish position]) hlhs hfirst
    (Place.mem_outer (by rw [hq]; exact Nat.zero_le _)) (by rw [hm]; decide) hleft
  have hshiftm : s.Goes stop 1
      ⟨[q.after [.expression], q.state, Place.start.state], [t, l], m :: (right ++ [r, .finish position])⟩
      ⟨[(Place.endpoint square).state, q.after [.expression], q.state, Place.start.state], [m, t, l],
        right ++ [r, .finish position]⟩ :=
    Goes.shift_append (by rw [hm]; exact hcomma)
  -- the second end
  have hr : r.symbol ∈ [Symbol.rightBracket, .rightParen] := by
    rw [hrsymbol]
    cases square' <;> decide
  have hr0 : r.symbol.Follows 0 ∧ r.symbol ≠ .bar ∧ r.symbol ∈ Symbol.closers := by
    have hall : ∀ x ∈ [Symbol.rightBracket, .rightParen], x.floor? = some 0 ∧ x ≠ .bar ∧ x ∈ Symbol.closers := by decide
    obtain ⟨hfloor, hrest⟩ := hall _ hr
    exact ⟨⟨0, hfloor, Nat.le_refl _⟩, hrest⟩
  have hsecond : Admits (.endpoint square) 0 [q.after [.expression], q.state, Place.start.state] [m, t, l] r :=
    ⟨Nat.le_refl _, hr0.1, rfl, congrArg some hm, .of_ne hr0.2.1 _⟩
  obtain ⟨u, -, hu, k, hk, hgoRight⟩ := hb.lift [.finish position] hlhs' hsecond (Place.mem_outer (Nat.zero_le _))
    hr0.2.2 hright
  have hshiftr : s.Goes stop 1
      ⟨[(Place.endpoint square).after [.expression], (Place.endpoint square).state, q.after [.expression], q.state,
        Place.start.state], [u, m, t, l], [r, .finish position]⟩
      ⟨[(Place.endpoint square).after [.expression, r.symbol], (Place.endpoint square).after [.expression],
        (Place.endpoint square).state, q.after [.expression], q.state, Place.start.state], [r, u, m, t, l],
        [.finish position]⟩ :=
    Goes.shift (hcloses _ hr)
  -- the interval
  have hrule : Reduces ((Place.endpoint square).after [.expression, r.symbol]) .finish (intervalRule square square') ∧
      (∃ prec, Rule.form? (intervalRule square square').index = some ⟨intervalRule square square', .interval,
        [l.symbol, .expression, .comma, .expression, r.symbol], prec⟩) ∧
      (intervalRule square square', if square then '[' else '(', if square' then ']' else ')') ∈ Rule.intervals := by
    rw [hlsymbol, hrsymbol]
    cases square <;> cases square'
    · exact ⟨hopen, ⟨_, rfl⟩, by decide⟩
    · exact ⟨hleftOpen, ⟨_, rfl⟩, by decide⟩
    · exact ⟨hrightOpen, ⟨_, rfl⟩, by decide⟩
    · exact ⟨hclosed, ⟨_, rfl⟩, by decide⟩
  obtain ⟨hreduces, ⟨prec, hform⟩, hmem⟩ := hrule
  have hbuilds :
      s.Builds ⟨[l, t, m, u, r], none⟩ (intervalRule square square') (.expr (Expr.span square a b square')) :=
    Makes.builds (.interval hmem ⟨t, rfl, ht⟩ ⟨u, rfl, hu⟩)
  have hstart : Admits .start 0 [] [] (.finish position) := admits_start (finish_follows _ _) (by simp [Token.finish])
  obtain ⟨v, -, hv, hstep⟩ := hstart.reduce stop [] (intervalRule square square') [l, t, m, u, r]
    [(Place.endpoint square).after [.expression], (Place.endpoint square).state, q.after [.expression], q.state] hform
    rfl rfl hreduces hbuilds hgoto
  have hrun := ((((hshiftl.trans hgoLeft).trans hshiftm).trans hgoRight).trans hshiftr).trans hstep
  subst hstop
  refine Goes.parse_equation (l :: (left ++ m :: (right ++ [r]))) [v] []
    (e := Expr.span square a b square') (by simpa using hrun) rfl rfl rfl hbare (builds_expr (fun _ => rfl) rfl hv) ?_
    names
  simp only [List.length_append, List.length_cons, List.length_nil]
  omega

/-! ## Definitions -/

variable (tokens) in
/-- A phrase that is a whole definition is accepted. -/
theorem Goes.parse_definition {e : Expr} {n q : Nat} {r : Rule} (phrase : List Token) (above : List Nat)
    {rhs : List Symbol} {prec : Option LR.Prec}
    (h : s.Goes (stopOf (tokens ++ [.finish position])) n ⟨[Place.parameter.origin], [], tokens ++ [.finish position]⟩
      ⟨q :: (above ++ [Place.parameter.origin]), phrase.reverse, [.finish position]⟩)
    (hform : Rule.form? r.index = some ⟨r, .definition, rhs, prec⟩) (hp : phrase.length = rhs.length)
    (ha : above.length + 1 = rhs.length) (hr : Reduces q .finish r) (hb : s.Builds ⟨phrase, none⟩ r (.expr e))
    (hn : n ≤ 3 * tokens.length + 1) (names : List String) :
    (s.parseTokens .definition (tokens ++ [.finish position]) names).result = .ok e.classify := by
  obtain ⟨-, -, -, -, -, hgoto, haccept⟩ := Place.chart_definitions
  have hsettled : Settled q (.finish position) r [] := .inr ⟨hr, .of_ne (by simp [Token.finish]) _⟩
  have hbottom : ([] : List Nat).length = ([] : List Token).length := rfl
  obtain ⟨u, -, hu, hstep⟩ :=
    Goes.reduce (stopOf (tokens ++ [.finish position])) [] r phrase above hform hp ha hbottom hsettled hb hgoto
  rw [List.append_nil] at hstep
  exact Goes.parseTokens_eq .definition (h.trans hstep) haccept (by omega) hu names

/-- A definition is parsed when its parameters and its body are read. -/
theorem Reads.parse_definition {name : String} {rows : List (List Lexeme)} {params : List Expr} {lhs : Symbol}
    {ls : List Lexeme} {body : Expr} (hp : s.ReadsAll (stopOf (tokens ++ [.finish position])) rows params)
    (hb : s.Reads (stopOf (tokens ++ [.finish position])) 0 lhs ls body) (hlhs : lhs ∈ operandHeads)
    (htokens : tokens.map Token.written = ⟨.identifier, name⟩ :: .mark .leftParen ::
      ([Lexeme.mark .comma].intercalate rows ++ .mark .rightParen :: ⟨.equal, "="⟩ :: ls))
    (names : List String) :
    (s.parseTokens .definition (tokens ++ [.finish position]) names).result = .ok (.definition name params body) := by
  obtain ⟨t, more, rfl, ht, htokens⟩ := List.map_eq_cons_iff.mp htokens
  obtain ⟨l, more, rfl, hl, htokens⟩ := List.map_eq_cons_iff.mp htokens
  obtain ⟨inner, more, rfl, hinner, htokens⟩ := List.map_eq_append_iff.mp htokens
  obtain ⟨r, more, rfl, hr, htokens⟩ := List.map_eq_cons_iff.mp htokens
  obtain ⟨m, right, rfl, hm, hright⟩ := List.map_eq_cons_iff.mp htokens
  obtain ⟨htsymbol, htlexeme⟩ := Lexeme.written_eq ht
  have hl := written_mark (by decide) hl
  have hr := written_mark (by decide) hr
  have hm := (Lexeme.written_eq hm).1
  obtain ⟨hhead, hshort, hlong, hends, hends', -⟩ := Place.chart_definitions
  generalize hstop : stopOf (t :: l :: (inner ++ r :: m :: right) ++ [.finish position]) = stop at hp hb
  -- the name and the bracket
  have hname : [t, l].map (·.symbol) = [.identifier, .leftParen] := by simp [htsymbol, hl]
  have hmarks : [r, m].map (·.symbol) = [.rightParen, .equal] := by simp [hr, hm]
  have hinput : inner ++ r :: m :: (right ++ [Token.finish position]) ≠ [] := by simp
  have hinput' : right ++ [Token.finish position] ≠ [] := by simp
  obtain ⟨above, habove, hgoHead⟩ := Goes.shifts s stop Place.parameter.origin [] [] hname hhead hinput
  have hparameter : Place.follow Place.parameter.origin [.identifier, .leftParen] = Place.parameter.state := rfl
  rw [hparameter] at hgoHead
  cases hp with
  | nil =>
    obtain rfl := List.map_eq_nil_iff.mp hinner
    obtain ⟨above', habove', hgoMarks⟩ :=
      Goes.shifts s stop Place.parameter.state (above ++ [Place.parameter.origin]) [l, t] hmarks hshort hinput'
    rw [Place.follow_equal.2] at hgoMarks
    have hadmits : Admits (.definitionBody false) 0
        (above' ++ Place.parameter.state :: (above ++ [Place.parameter.origin])) [m, r, l, t] (.finish position) :=
      ⟨Nat.le_refl _, finish_follows _ _, by simp [habove, habove'], congrArg some hm,
        .of_ne (by simp [Token.finish]) _⟩
    obtain ⟨u, -, hu, k, hk, hgoBody⟩ :=
      hb.lift [] hlhs hadmits (by decide) (by simp [Token.finish, Symbol.closers]) hright
    have hbuilds : s.Builds ⟨[t, l, r, m, u], none⟩ .definitionWithoutParameters (.expr (.definition name [] body)) :=
      Makes.builds (.definitionWithoutParameters ⟨t, rfl, htlexeme⟩ ⟨u, rfl, hu⟩)
    have hrun := (hgoHead.trans hgoMarks).trans hgoBody
    subst hstop
    refine Goes.parse_definition (t :: l :: r :: m :: right) [t, l, r, m, u]
      ((Place.definitionBody false).state :: (above' ++ Place.parameter.state :: above)) (by simpa using hrun) rfl rfl
      (by simp [habove, habove']) hends' hbuilds ?_ names
    simp only [List.length_cons]
    omega
  | @cons row a rows args hrow hrows =>
    have hlength : (above ++ [Place.parameter.origin]).length = [l, t].length := by simp [habove]
    obtain ⟨w, hw, hgoParameters⟩ := ReadsAll.arguments (.cons hrow hrows) (q := .parameter) (by decide) hlength
      (congrArg some hl) hr hinner (m :: (right ++ [.finish position]))
    obtain ⟨above', habove', hgoMarks⟩ := Goes.shifts s stop (Place.parameter.after [.arguments])
      (Place.parameter.state :: (above ++ [Place.parameter.origin])) [w, l, t] hmarks hlong hinput'
    rw [Place.follow_equal.1] at hgoMarks
    have hadmits : Admits (.definitionBody true) 0
        (above' ++ Place.parameter.after [.arguments] :: Place.parameter.state :: (above ++ [Place.parameter.origin]))
        [m, r, w, l, t] (.finish position) :=
      ⟨Nat.le_refl _, finish_follows _ _, by simp [habove, habove'], congrArg some hm,
        .of_ne (by simp [Token.finish]) _⟩
    obtain ⟨u, -, hu, k, hk, hgoBody⟩ :=
      hb.lift [] hlhs hadmits (by decide) (by simp [Token.finish, Symbol.closers]) hright
    have hbuilds : s.Builds ⟨[t, l, w, r, m, u], none⟩ .definition (.expr (.definition name (a :: args) body)) :=
      Makes.builds (.definition ⟨t, rfl, htlexeme⟩ ⟨w, rfl, hw⟩ ⟨u, rfl, hu⟩)
    have hrun := ((hgoHead.trans hgoParameters).trans hgoMarks).trans hgoBody
    subst hstop
    refine Goes.parse_definition (t :: l :: (inner ++ r :: m :: right)) [t, l, w, r, m, u]
      ((Place.definitionBody true).state ::
        (above' ++ Place.parameter.after [.arguments] :: Place.parameter.state :: above)) (by simpa using hrun) rfl rfl
      (by simp [habove, habove']) hends hbuilds ?_ names
    simp only [List.length_append, List.length_cons]
    omega

end Setting

end Formula
