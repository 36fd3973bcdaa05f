import Formula.Proofs.Expr.Operators

/-!
# Precedence

Every operand is read as far as its level goes, so the parser finds the tree again whose operands were bracketed where
their levels ask for it. The last kind of node is a call, whose arguments are read one by one between commas
(`ReadsAll`, `reads_call`). With the pieces and the operators this gives all plain trees, by recursion on them
(`reads_plain`), and then whole texts: what a plain tree is written as, in whatever spacing, is parsed as that tree
(`Expr.Plain.parse_spelled`).
-/

namespace Formula

open Rule (Shifts Gotos Reduces)
open Text (Position)

namespace Setting

variable {s : Setting} {stop : Position}

-- so that states are compared by name and the tables are not computed
attribute [local irreducible] Place.follow Rule.reduction? Rule.tables

variable {p : Place} {level : Nat} {states : List Nat} {stack : List Token} {next : Token}

/-! ## Calls -/

/-- A row of lexemes with commas in front of each. -/
def commaed (rows : List (List Lexeme)) : List Lexeme := rows.flatMap (.mark .comma :: ·)

theorem intercalate_eq (row : List Lexeme) (rows : List (List Lexeme)) :
    [Lexeme.mark .comma].intercalate (row :: rows) = row ++ commaed rows := by
  induction rows generalizing row with
  | nil => simp [commaed]
  | cons row' rows ih =>
    rw [List.intercalate_cons_cons, ih, commaed, commaed, List.flatMap_cons, List.append_assoc]
    rfl

theorem head_mem (e : Expr) : e.head ∈ operandHeads := by
  unfold Expr.head
  split <;> decide

/-- The rows of lexemes are read as the arguments, one by one. -/
def ReadsAll (s : Setting) (stop : Position) : List (List Lexeme) → List Expr → Prop :=
  List.Forall₂ fun row a => ∃ lhs ∈ operandHeads, s.Reads stop 0 lhs row a

/-- Behind an argument stands the next comma or the bracket. -/
theorem exists_next {tokens : List Token} {rows : List (List Lexeme)}
    (htokens : tokens.map Token.written = commaed rows) {next : Token} (hn : next.symbol = .rightParen)
    (rest : List Token) :
    ∃ x xs, tokens ++ next :: rest = x :: xs ∧ (x.symbol = .comma ∨ x.symbol = .rightParen) := by
  cases rows with
  | nil =>
    obtain rfl := List.map_eq_nil_iff.mp htokens
    exact ⟨next, rest, rfl, .inr hn⟩
  | cons row rows =>
    obtain ⟨x, xs, rfl, hx, -⟩ := List.map_eq_cons_iff.mp htokens
    exact ⟨x, xs ++ next :: rest, rfl, .inl (written_mark (by decide) hx)⟩

/-- An argument is read in front of a comma or the bracket. -/
theorem Reads.argument {lhs : Symbol} {ls : List Lexeme} {e : Expr} (h : s.Reads stop 0 lhs ls e)
    (hlhs : lhs ∈ operandHeads) {q : Place} (hq : q.level = 0) (hs : states.length = stack.length)
    (hentry : stack.head?.map (·.symbol) = q.entry?) (hnext : next.symbol = .comma ∨ next.symbol = .rightParen)
    {tokens : List Token} (htokens : tokens.map Token.written = ls) (rest : List Token) :
    ∃ t : Token, t.payload = .expr e ∧ ∃ n ≤ 3 * tokens.length,
      s.Goes stop n ⟨q.state :: states, stack, tokens ++ next :: rest⟩
        ⟨q.after [.expression] :: q.state :: states, t :: stack, next :: rest⟩ := by
  have hfollows : next.symbol.Follows 0 := by
    rcases hnext with h | h <;> exact ⟨0, by rw [h]; rfl, Nat.le_refl _⟩
  have hadmits : Admits q 0 states stack next :=
    ⟨Nat.le_of_eq hq, hfollows, hs, hentry, .of_ne (by rcases hnext with h | h <;> rw [h] <;> decide) _⟩
  have houter : q ∈ Place.outer := Place.mem_outer (by rw [hq]; exact Nat.zero_le _)
  obtain ⟨t, -, he, n, hn, hgo⟩ := h.lift rest hlhs hadmits houter
    (by rcases hnext with h | h <;> rw [h] <;> decide) htokens
  exact ⟨t, he, n, hn, hgo⟩

/-- The rest of the arguments, one after the other. -/
theorem ReadsAll.more {rows : List (List Lexeme)} {args done : List Expr} (h : s.ReadsAll stop rows args) {q : Place}
    (hq : q ∈ [Place.call, .parameter]) (hs : states.length = stack.length) {tokens : List Token} {t : Token}
    (ht : t.payload = .args done) (hn : next.symbol = .rightParen) (htokens : tokens.map Token.written = commaed rows)
    (rest : List Token) :
    ∃ u : Token, u.payload = .args (done ++ args) ∧ s.Goes stop (3 * tokens.length)
      ⟨q.after [.arguments] :: q.state :: states, t :: stack, tokens ++ next :: rest⟩
      ⟨q.after [.arguments] :: q.state :: states, u :: stack, next :: rest⟩ := by
  induction h generalizing done tokens t with
  | nil =>
    obtain rfl := List.map_eq_nil_iff.mp htokens
    exact ⟨t, by rw [ht, List.append_nil], .refl _⟩
  | @cons row a rows args hrow _ ih =>
    obtain ⟨lhs, hlhs, hread⟩ := hrow
    rw [commaed, List.flatMap_cons, ← commaed, List.cons_append] at htokens
    obtain ⟨m, tokens, rfl, hm, htokens⟩ := List.map_eq_cons_iff.mp htokens
    obtain ⟨first, more, rfl, hfirst, hmore⟩ := List.map_eq_append_iff.mp htokens
    have hm := written_mark (by decide) hm
    obtain ⟨-, -, -, -, hplaces, hends⟩ := Place.chart_calls
    obtain ⟨hgoto, hcomma, -⟩ := hplaces q hq
    obtain ⟨x, xs, hx, hxs⟩ := exists_next hmore hn rest
    have hlength : (q.after [.arguments] :: q.state :: states).length = (m :: t :: stack).length :=
      congrArg (· + 2) hs
    obtain ⟨u, hu, n, hle, hgo⟩ := hread.argument hlhs (q := .comma) rfl hlength (congrArg some hm) hxs hfirst xs
    have hshift : s.Goes stop 1
        ⟨q.after [.arguments] :: q.state :: states, t :: stack, m :: (first ++ x :: xs)⟩
        ⟨Place.comma.state :: q.after [.arguments] :: q.state :: states, m :: t :: stack, first ++ x :: xs⟩ :=
      Goes.shift_append (by rw [hm]; exact hcomma)
    have hbuilds : s.Builds ⟨[t, m, u], stack.head?.map (·.symbol)⟩ .nextArgument (.args (done ++ [a])) := by
      intro names
      refine ⟨names, ?_⟩
      show (do return .args ((← Phrase.args ⟨[t, m, u], _⟩ 0) ++ [← Phrase.expr ⟨[t, m, u], _⟩ 2]) :
        Build Payload) names = _
      rw [Phrase.args_eq rfl ht, pure_bind, Phrase.expr_eq rfl hu]
      rfl
    have hopen : Open x stack := .of_ne (by rcases hxs with h | h <;> rw [h] <;> decide) _
    have hreduces : Reduces (Place.comma.after [.expression]) x.symbol .nextArgument :=
      hends _ (by rcases hxs with h | h <;> rw [h] <;> decide)
    obtain ⟨v, -, hv, hstep⟩ := Goes.reduce stop xs .nextArgument [t, m, u]
      [Place.comma.state, q.after [.arguments]] rfl rfl rfl hs (.inr ⟨hreduces, hopen⟩) hbuilds hgoto
    obtain ⟨w, hw, hrest⟩ := ih hv hmore
    refine ⟨w, by rw [hw, List.append_assoc]; rfl, ?_⟩
    have hrun := (hshift.trans hgo).trans hstep
    rw [← hx] at hrun
    have hlen : 1 + n + 1 + 3 * more.length ≤ 3 * (m :: (first ++ more)).length := by
      rw [List.length_cons, List.length_append]
      omega
    have hall := (hrun.trans hrest).mono hlen
    simpa using hall

/-- All arguments, of which there is at least one. -/
theorem ReadsAll.arguments {row : List Lexeme} {rows : List (List Lexeme)} {a : Expr} {args : List Expr}
    (h : s.ReadsAll stop (row :: rows) (a :: args)) {q : Place} (hq : q ∈ [Place.call, .parameter])
    (hs : states.length = stack.length) (hentry : stack.head?.map (·.symbol) = q.entry?)
    (hn : next.symbol = .rightParen) {tokens : List Token}
    (htokens : tokens.map Token.written = [Lexeme.mark .comma].intercalate (row :: rows)) (rest : List Token) :
    ∃ u : Token, u.payload = .args (a :: args) ∧ s.Goes stop (3 * tokens.length + 1)
      ⟨q.state :: states, stack, tokens ++ next :: rest⟩
      ⟨q.after [.arguments] :: q.state :: states, u :: stack, next :: rest⟩ := by
  rw [intercalate_eq] at htokens
  obtain ⟨first, more, rfl, hfirst, hmore⟩ := List.map_eq_append_iff.mp htokens
  obtain ⟨-, -, -, -, hplaces, -⟩ := Place.chart_calls
  obtain ⟨hgoto, -, hends⟩ := hplaces q hq
  obtain ⟨x, xs, hx, hxs⟩ := exists_next hmore hn rest
  obtain ⟨⟨lhs, hlhs, hread⟩, hrest⟩ := List.forall₂_cons.mp h
  have hlevel : q.level = 0 := by
    have hall : ∀ q ∈ [Place.call, .parameter], q.level = 0 := by decide
    exact hall q hq
  obtain ⟨t, ht, n, hle, hgo⟩ := hread.argument hlhs hlevel hs hentry hxs hfirst xs
  have hbuilds : s.Builds ⟨[t], stack.head?.map (·.symbol)⟩ .firstArgument (.args [a]) := by
    intro names
    refine ⟨names, ?_⟩
    show (do return .args [← Phrase.expr ⟨[t], _⟩ 0] : Build Payload) names = _
    rw [Phrase.expr_eq rfl ht]
    rfl
  have hopen : Open x stack := .of_ne (by rcases hxs with h | h <;> rw [h] <;> decide) _
  have hreduces : Reduces (q.after [.expression]) x.symbol .firstArgument :=
    hends _ (by rcases hxs with h | h <;> rw [h] <;> decide)
  obtain ⟨u, -, hu, hstep⟩ :=
    Goes.reduce stop xs .firstArgument [t] [] rfl rfl rfl hs (.inr ⟨hreduces, hopen⟩) hbuilds hgoto
  obtain ⟨w, hw, hrest⟩ := ReadsAll.more hrest hq hs hu hn hmore rest
  refine ⟨w, hw, ?_⟩
  have hrun := hgo.trans hstep
  rw [← hx] at hrun
  have hlen : n + 1 + 3 * more.length ≤ 3 * (first ++ more).length + 1 := by
    rw [List.length_append]
    omega
  have hall := (hrun.trans hrest).mono hlen
  rwa [← List.append_assoc] at hall

/-- A call, with the state that the bracket behind the name leads to. -/
theorem reads_call {f : Function} {rows : List (List Lexeme)} {args : List Expr}
    (hf : s.catalog.function? f.name = some f) (hn : f.accepts args.length = true) (h : s.ReadsAll stop rows args) :
    s.Reads stop level .group
      (⟨.identifier, f.name⟩ :: .mark .leftParen :: ([Lexeme.mark .comma].intercalate rows ++ [.mark .rightParen]))
      (.call f args) := by
  intro rest p states stack tokens next hp htokens
  obtain ⟨t, tokens, rfl, ht, htokens⟩ := List.map_eq_cons_iff.mp htokens
  obtain ⟨l, tokens, rfl, hl, htokens⟩ := List.map_eq_cons_iff.mp htokens
  obtain ⟨inner, last, rfl, hinner, hlast⟩ := List.map_eq_append_iff.mp htokens
  obtain ⟨r, rfl, hr⟩ := List.map_eq_singleton_iff.mp hlast
  obtain ⟨htsymbol, htlexeme⟩ := Lexeme.written_eq ht
  have hl := written_mark (by decide) hl
  have hr := written_mark (by decide) hr
  obtain ⟨hparen, hempty, hclose, hends, -⟩ := Place.chart_calls
  have hgoto := p.gotos_group
  have hname : s.Goes stop 1 ⟨p.state :: states, stack, t :: l :: (inner ++ r :: next :: rest)⟩
      ⟨p.named.after [.identifier] :: p.state :: states, t :: stack, l :: (inner ++ r :: next :: rest)⟩ :=
    Goes.shift (by rw [htsymbol]; exact p.shifts_identifier)
  have hopened : s.Goes stop 1
      ⟨p.named.after [.identifier] :: p.state :: states, t :: stack, l :: (inner ++ r :: next :: rest)⟩
      ⟨Place.call.state :: p.named.after [.identifier] :: p.state :: states, l :: t :: stack,
        inner ++ r :: next :: rest⟩ :=
    Goes.shift_append (by rw [hl]; exact hparen _ p.named_mem)
  have hcall : ∀ names, s.call t.lexeme none args names = (.ok (.call f args), names) := by
    intro names
    unfold call
    rw [htlexeme, hf]
    dsimp only
    rw [pure_bind, Callable.checkArity, if_pos hn]
    rfl
  cases h with
  | nil =>
    obtain rfl := List.map_eq_nil_iff.mp hinner
    have hshift : s.Goes stop 1
        ⟨Place.call.state :: p.named.after [.identifier] :: p.state :: states, l :: t :: stack, r :: next :: rest⟩
        ⟨Place.call.after [.rightParen] :: Place.call.state :: p.named.after [.identifier] :: p.state :: states,
          r :: l :: t :: stack, next :: rest⟩ :=
      Goes.shift (by rw [hr]; exact hempty)
    have hbuilds : s.Builds ⟨[t, l, r], stack.head?.map (·.symbol)⟩ .callWithoutArguments
        (.expr (.call f [])) := by
      intro names
      refine ⟨names, ?_⟩
      show (do return .expr (← s.call (← Phrase.lexeme ⟨[t, l, r], _⟩ 0) none []) : Build Payload) names = _
      rw [Phrase.lexeme_eq rfl, pure_bind, Build.bind_ok (hcall names)]
      rfl
    obtain ⟨u, hu, hpayload, hstep⟩ := hp.reduce stop rest .callWithoutArguments [t, l, r]
      [Place.call.state, p.named.after [.identifier]] rfl rfl rfl (hends _ hp.follows.mem_followers).1 hbuilds hgoto
    exact ⟨u, hu, hpayload, 4, by simp, ((hname.trans hopened).trans hshift).trans hstep⟩
  | @cons row a rows args hrow hrows =>
    have hlength : (p.named.after [.identifier] :: p.state :: states).length = (l :: t :: stack).length :=
      congrArg (· + 2) hp.length_eq
    obtain ⟨u, hu, hgo⟩ := ReadsAll.arguments (.cons hrow hrows) (q := .call) (by decide) hlength (congrArg some hl) hr
      hinner (next :: rest)
    have hshift : s.Goes stop 1
        ⟨Place.call.after [.arguments] :: Place.call.state :: p.named.after [.identifier] :: p.state :: states,
          u :: l :: t :: stack, r :: next :: rest⟩
        ⟨Place.call.after [.arguments, .rightParen] :: Place.call.after [.arguments] :: Place.call.state ::
          p.named.after [.identifier] :: p.state :: states, r :: u :: l :: t :: stack, next :: rest⟩ :=
      Goes.shift (by rw [hr]; exact hclose)
    have hbuilds : s.Builds ⟨[t, l, u, r], stack.head?.map (·.symbol)⟩ .call
        (.expr (.call f (a :: args))) := by
      intro names
      refine ⟨names, ?_⟩
      show (do
        let args ← Phrase.args ⟨[t, l, u, r], _⟩ 2
        return .expr (← s.call (← Phrase.lexeme ⟨[t, l, u, r], _⟩ 0) none args) : Build Payload) names = _
      rw [Phrase.args_eq rfl hu, pure_bind, Phrase.lexeme_eq rfl, pure_bind, Build.bind_ok (hcall names)]
      rfl
    obtain ⟨v, hv, hpayload, hstep⟩ := hp.reduce stop rest .call [t, l, u, r]
      [Place.call.after [.arguments], Place.call.state, p.named.after [.identifier]] rfl rfl rfl
      (hends _ hp.follows.mem_followers).2 hbuilds hgoto
    refine ⟨v, hv, hpayload, 1 + 1 + (3 * inner.length + 1) + 1 + 1, ?_, ?_⟩
    · simp only [List.length_cons, List.length_append, List.length_nil]
      omega
    · have hrun := (((hname.trans hopened).trans hgo).trans hshift).trans hstep
      simpa using hrun

/-! ## All trees -/

theorem head_eq_group {e : Expr} (h : Rule.powerLevel ≤ e.level) : e.head = .group := by
  cases e with
  | binary op =>
    cases op <;>
      exact absurd h (by simp [Expr.level, Operator.level, Rule.powerLevel, Rule.sumLevel, Rule.productLevel])
  | pos => exact absurd h (by simp [Expr.level, Rule.powerLevel, Rule.signLevel])
  | neg => exact absurd h (by simp [Expr.level, Rule.powerLevel, Rule.signLevel])
  | _ => rfl

theorem head_of_signLevel {e : Expr} (h : Rule.signLevel ≤ e.level) : e.head = .group ∨ e.head = .unary := by
  cases e with
  | binary op =>
    cases op <;>
      exact absurd h (by simp [Expr.level, Operator.level, Rule.signLevel, Rule.sumLevel, Rule.productLevel])
  | pos => exact .inr rfl
  | neg => exact .inr rfl
  | _ => exact .inl rfl

/-- An operand of a power or a factorial is read as a group. -/
theorem Reads.placed_group {e : Expr} (h : s.Reads stop e.level e.head e.lexemes e) {least : Nat}
    (hl : Rule.powerLevel ≤ least) :
    s.Reads stop least .group (Lexeme.placed least e.level e.lexemes) e := by
  have hplaced := h.placed (head_mem e) least
  split at hplaced
  · rename_i hlevel
    rwa [head_eq_group (hl.trans hlevel)] at hplaced
  · exact hplaced

/-- An operand of a sign is read as a group or with a sign of its own. -/
theorem Reads.placed_sign {e : Expr} (h : s.Reads stop e.level e.head e.lexemes e) {x : Symbol}
    (hx : x = .plus ∨ x = .minus) :
    s.Reads stop Rule.signLevel .unary (.mark x :: Lexeme.placed Rule.signLevel e.level e.lexemes) (signed x e) := by
  refine (h.placed (head_mem e) _).sign ?_ hx
  split
  · rename_i hlevel
    exact head_of_signLevel hlevel
  · exact .inl rfl

/-- An operand of a sum or a product is read as something that becomes an expression. -/
theorem placed_head_mem (e : Expr) (least : Nat) : (if least ≤ e.level then e.head else .group) ∈ operandHeads := by
  split
  · exact head_mem e
  · decide

/-- A plain tree is read at its own level. -/
theorem reads_plain (hs : s.limits = {}) {e : Expr} (h : e.Plain s) : s.Reads stop e.level e.head e.lexemes e := by
  induction h with
  | number _ hv =>
    rw [Expr.lexemes]
    refine reads_number hv ?_
    rw [hs]
    exact Expr.checkedNumber_unlimited _ _
  | name h =>
    rw [Expr.lexemes]
    cases h with
    | word hw h =>
      rw [Lexeme.ofName_of_isWord hw]
      exact reads_word h
    | subscript hb hsub h =>
      rw [Lexeme.ofName_subscript hb]
      rcases hsub with hw | hn
      · rw [Lexeme.subscript_of_isWord hw]
        exact reads_subscript (.inr ⟨rfl, rfl⟩) h
      · rw [Lexeme.subscript_of_isNumeral hn]
        exact reads_subscript (.inl ⟨rfl, rfl⟩) h
  | @absolute a _ ih =>
    rw [Expr.lexemes]
    exact ih.bars (head_mem a)
  | @call f args _ hf hn _ ih =>
    rw [Expr.lexemes, Expr.lexemesOf_eq_map]
    refine reads_call hf hn (List.forall₂_map_left_iff.mpr (List.forall₂_same.mpr fun a ha => ?_))
    exact ⟨a.head, head_mem a, (ih a ha).mono (Nat.zero_le _)⟩
  | pos _ ih =>
    rw [Expr.lexemes]
    exact Reads.placed_sign ih (.inl rfl)
  | neg _ ih =>
    rw [Expr.lexemes]
    exact Reads.placed_sign ih (.inr rfl)
  | factorial _ ih =>
    rw [Expr.lexemes]
    refine (Reads.placed_group ih (by decide)).factorial ?_
    rw [hs]
    exact Expr.checkedFactorial_unlimited _
  | @binary op a b _ _ iha ihb =>
    rw [Expr.lexemes]
    have hleft := iha.placed (head_mem a) op.level
    have hright := ihb.placed (head_mem b) (op.level + 1)
    exact hleft.binary (placed_head_mem a _) hright (placed_head_mem b _)
  | power _ _ iha ihb =>
    rw [Expr.lexemes]
    have hbase := Reads.placed_group iha (Nat.le_succ Rule.powerLevel)
    refine hbase.power (Reads.placed_group ihb (by decide)) ?_
    rw [hs]
    exact Expr.checkedPower_unlimited _ _

/-! ## Whole texts -/

/-- A parse that comes to the end of the input with one token on the stack, which is accepted, gives the tree that the
token carries. -/
theorem Goes.parseTokens_eq (goal : Goal) {tokens : List Token} {position : Position} {n q : Nat} {states : List Nat}
    {t : Token} {e : Expr} (h : s.Goes (stopOf (tokens ++ [.finish position])) n
      ⟨[goal.index], [], tokens ++ [.finish position]⟩ ⟨q :: states, [t], [.finish position]⟩)
    (ha : Rule.tables.lookup q Symbol.finish.index = .accept) (hn : n ≤ 3 * tokens.length + 2)
    (he : t.payload = .expr e) (names : List String) :
    (s.parseTokens goal (tokens ++ [.finish position]) names).result = .ok e.classify := by
  have hfuel : n < 8 * ((tokens ++ [Token.finish position]).length + 2) := by
    rw [List.length_append]
    omega
  have hrun : (s.run goal (tokens ++ [.finish position]) names).result = .ok t :=
    h.run_eq ha hfuel (by simp) names
  unfold parseTokens
  dsimp only
  rw [hrun]
  show (do return (← exprOf t).classify) = _
  rw [exprOf, he]
  rfl

/-- A row that is read as a tree, followed by the end of the input, is parsed as that tree, unless it is a relation. -/
theorem Reads.parseTokens_eq {lhs : Symbol} {ls : List Lexeme} {e : Expr} {tokens : List Token} {position : Position}
    (h : s.Reads (stopOf (tokens ++ [.finish position])) level lhs ls e) (hlhs : lhs ∈ operandHeads)
    (he : e.classify = e) (htokens : tokens.map Token.written = ls) (names : List String) :
    (s.parseTokens .equation (tokens ++ [.finish position]) names).result = .ok e := by
  obtain ⟨hplain, hgoto, haccept⟩ := Place.chart_goal
  have hsymbol : (Token.finish position).symbol = .finish := rfl
  have hstart : Admits .start level [] [] (.finish position) :=
    ⟨Nat.zero_le _, ⟨0, rfl, Nat.zero_le _⟩, rfl, rfl, .of_ne (by rw [hsymbol]; decide) []⟩
  obtain ⟨t, -, hpayload, n, hn, hgo⟩ :=
    h.lift [] hlhs hstart (by decide) (by rw [hsymbol]; decide) htokens
  obtain ⟨u, -, hu, hstep⟩ := hstart.reduce (stopOf (tokens ++ [.finish position])) [] .plain [t] [] rfl rfl rfl
    hplain (builds_expr (fun _ => rfl) rfl hpayload) hgoto
  have hrun := hgo.trans hstep
  rw [Place.state_start] at hrun
  have hparse := Goes.parseTokens_eq .equation hrun haccept (by omega) hu names
  rwa [he] at hparse

/-- No plain tree is a relation, so a parse leaves it as it is. -/
theorem classify_plain {e : Expr} (h : e.Plain s) : e.classify = e := by
  cases h <;> rfl

/-- The parser turns the lexemes of a plain tree, followed by the end of the input, into that tree. -/
theorem parseTokens_lexemes (hs : s.limits = {}) {e : Expr} (h : e.Plain s) {tokens : List Token}
    (htokens : tokens.map Token.written = e.lexemes) (position : Position) (names : List String) :
    (s.parseTokens .equation (tokens ++ [.finish position]) names).result = .ok e :=
  (reads_plain hs h).parseTokens_eq (head_mem e) (classify_plain h) htokens names

end Setting

/-- What a plain tree is written as is read as that tree, however the tokens are spaced, in any catalog without
limits. -/
theorem Expr.Plain.parse_spelled {catalog : Catalog} {e : Expr} (h : e.Plain { catalog }) {text : String}
    (ht : Spelled e.lexemes text.toList) : (Setting.parse { catalog } .equation text).result = .ok e := by
  obtain ⟨tokens, stop, htokens, hwritten⟩ := tokenize_spelled ht h.orderly.legal h.orderly.apart
  unfold Setting.parse
  rw [htokens]
  exact Setting.parseTokens_lexemes rfl h hwritten stop []

/-- The tree of `-|x-|y_1||^2^n!*(a+1.5)-log(8,|b|)`. -/
def Expr.nested : Expr :=
  .binary .sub
    (.binary .mul
      (.neg (.power (.absolute (.binary .sub (.variable "x") (.absolute (.variable "y_1"))))
        (.power (.number "2" (.ratio 2 1)) (.factorial (.variable "n") (1 / 0)) (1 / 0)) (1 / 0)))
      (.binary .add (.variable "a") (.number "1.5" (.ratio 3 2))))
    (.call (.builtin "log" 1 2) [.number "8" (.ratio 8 1), .absolute (.variable "b")])

theorem Expr.nested_plain : nested.Plain { catalog := .builtin } := by
  have hletter : ∀ w ∈ ["x", "n", "a", "b"], Plain { catalog := .builtin } (.variable w) := by
    intro w hw
    have hword : IsWord w ∧ Setting.resolve { catalog := .builtin } w none = .variable w := by
      simp only [List.mem_cons, List.not_mem_nil, or_false] at hw
      rcases hw with rfl | rfl | rfl | rfl <;> exact ⟨by decide, rfl⟩
    exact .name (.word hword.1 hword.2)
  have hsubscript : Plain { catalog := .builtin } (.variable "y_1") :=
    .name (@Setting.Resolves.subscript _ "y" "1" (by decide) (.inr (by decide)) rfl)
  have hargs : ∀ e ∈ [Expr.number "8" (.ratio 8 1), .absolute (.variable "b")], Plain { catalog := .builtin } e := by
    intro e he
    simp only [List.mem_cons, List.not_mem_nil, or_false] at he
    rcases he with rfl | rfl
    · exact .number (by decide) rfl
    · exact .absolute (hletter "b" (by decide))
  refine .binary (.binary (.neg (.power (.absolute ?_) ?_)) ?_) (.call (by decide) rfl rfl hargs)
  · exact .binary (hletter "x" (by decide)) (.absolute hsubscript)
  · exact .power (.number (by decide) rfl) (.factorial (hletter "n" (by decide)))
  · exact .binary (hletter "a" (by decide)) (.number (by decide) rfl)

theorem Expr.parse_nested :
    (Setting.parse { catalog := .builtin } .equation "-|x-|y_1||^2^n!*(a+1.5)-log(8,|b|)").result = .ok nested := by
  refine nested_plain.parse_spelled ?_
  have htext : "-|x-|y_1||^2^n!*(a+1.5)-log(8,|b|)".toList = nested.lexemes.flatMap (·.text.toList) := by
    decide +kernel
  rw [htext]
  exact spelled_flatMap _

end Formula
