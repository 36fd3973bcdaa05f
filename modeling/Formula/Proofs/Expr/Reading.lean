import Formula.Proofs.Expr.Scene
import Formula.Proofs.Limits

/-!
# Reading a tree

The parser reads back what a tree was written as. `Reads` is the statement for one row of lexemes: wherever an
operand of the level may stand, and whatever token follows that asks for no higher level, the parser turns the row
into one token that carries the tree. It is shown for every kind of tree from the same statement for its operands;
an operand in parentheses is read at any level (`Reads.placed`), and at the places of sums and products everything
becomes an expression (`Reads.lift`). The turns are counted along, three for each token at most.
-/

namespace Formula

open Rule (Shifts Gotos Reduces)
open Text (Position)

/-- The nonterminal that a tree is read as. -/
def Expr.head : Expr → Symbol
  | .binary .. => .expression
  | .pos _ | .neg _ => .unary
  | _ => .group

namespace Setting

variable {s : Setting} {stop : Position}

-- so that states are compared by name and the tables are not computed
attribute [local irreducible] Place.follow Rule.reduction? Rule.tables

/-- An operand of a level may stand at the place, with the next token behind it. -/
structure Admits (p : Place) (level : Nat) (states : List Nat) (stack : List Token) (next : Token) : Prop where
  level_le : p.level ≤ level
  follows : next.symbol.Follows level
  length_eq : states.length = stack.length
  entry : stack.head?.map (·.symbol) = p.entry?
  opened : Open next stack

/-- A row of lexemes is read as one token that carries a tree, where an operand of the level may stand. -/
def Reads (s : Setting) (stop : Position) (level : Nat) (lhs : Symbol) (ls : List Lexeme) (e : Expr) : Prop :=
  ∀ (rest : List Token) {p : Place} {states : List Nat} {stack tokens : List Token} {next : Token},
    Admits p level states stack next → tokens.map Token.written = ls →
      ∃ t : Token, t.symbol = lhs ∧ t.payload = .expr e ∧ ∃ n < 3 * tokens.length,
        s.Goes stop n ⟨p.state :: states, stack, tokens ++ next :: rest⟩
          ⟨p.after [lhs] :: p.state :: states, t :: stack, next :: rest⟩

variable {p : Place} {level : Nat} {states : List Nat} {stack : List Token} {next : Token}

namespace Admits

theorem mono (h : Admits p level states stack next) {level' : Nat} (hl : level ≤ level') :
    Admits p level' states stack next :=
  { h with level_le := h.level_le.trans hl, follows := h.follows.mono hl }

/-- The same place with another token behind the operand, which is no bar. -/
theorem before (h : Admits p level states stack next) {level' : Nat} {next' : Token} (hl : p.level ≤ level')
    (hf : next'.symbol.Follows level') (hb : next'.symbol ≠ .bar) : Admits p level' states stack next' :=
  { h with level_le := hl, follows := hf, opened := .of_ne hb stack }

/-- The symbol on the stack is none that an operand cannot stand behind. -/
theorem head_ne (h : Admits p level states stack next) :
    (stack.map (·.symbol)).head? ≠ some .identifier ∧ (some .compose = stack.head?.map (·.symbol) → p = .compose) := by
  rw [List.head?_map, h.entry]
  exact p.entry?_ne

/-- A phrase that begins at the place is reduced. -/
theorem reduce (h : Admits p level states stack next) (stop : Position) (rest : List Token) (r : Rule)
    (phrase : List Token) (above : List Nat) {lhs : Symbol} {rhs : List Symbol} {prec : Option LR.Prec} {q : Nat}
    {payload : Payload} (hform : Rule.form? r.index = some ⟨r, lhs, rhs, prec⟩)
    (hp : phrase.length = rhs.length) (ha : above.length + 1 = rhs.length) (hr : Reduces q next.symbol r)
    (hb : s.Builds ⟨phrase, stack.head?.map (·.symbol)⟩ r payload) (hg : Gotos p.state lhs (p.after [lhs])) :
    ∃ t : Token, t.symbol = lhs ∧ t.payload = payload ∧
      s.Goes stop 1 ⟨q :: (above ++ p.state :: states), phrase.reverse ++ stack, next :: rest⟩
        ⟨p.after [lhs] :: p.state :: states, t :: stack, next :: rest⟩ :=
  Goes.reduce stop rest r phrase above hform hp ha h.length_eq (.inr ⟨hr, h.opened⟩) hb hg

end Admits

/-! ## Phrases with one operand -/

/-- What is built from a phrase that only hands on the tree at a place. -/
theorem builds_expr {phrase : List Token} {below : Option Symbol} {r : Rule} {i : Nat}
    (hr : ∀ p : Phrase, s.build p r = (do return .expr (← p.expr i))) {t : Token} (ht : phrase[i]? = some t)
    {e : Expr} (he : t.payload = .expr e) : s.Builds ⟨phrase, below⟩ r (.expr e) := by
  intro names
  refine ⟨names, ?_⟩
  rw [hr, Phrase.expr_eq ht he]
  rfl

/-- The kinds of tokens that become expressions. -/
def operandHeads : List Symbol := [.group, .unary, .expression]

/-- Where whole sums and products may stand, everything becomes an expression. -/
theorem Reads.lift {lhs : Symbol} {ls : List Lexeme} {e : Expr} (h : s.Reads stop level lhs ls e)
    (rest : List Token) (hlhs : lhs ∈ operandHeads) (hp : Admits p level states stack next) (houter : p ∈ Place.outer)
    (hx : next.symbol ∈ Symbol.closers) {tokens : List Token} (htokens : tokens.map Token.written = ls) :
    ∃ t : Token, t.symbol = .expression ∧ t.payload = .expr e ∧ ∃ n ≤ 3 * tokens.length,
      s.Goes stop n ⟨p.state :: states, stack, tokens ++ next :: rest⟩
        ⟨p.after [.expression] :: p.state :: states, t :: stack, next :: rest⟩ := by
  obtain ⟨t, ht, he, n, hn, hgo⟩ := h rest hp htokens
  obtain ⟨hends, hreduces, -⟩ := Place.chart_sums
  obtain ⟨hgoto, hgroup, hunary⟩ := hends p houter
  simp only [operandHeads, List.mem_cons, List.not_mem_nil, or_false] at hlhs
  rcases hlhs with rfl | rfl | rfl
  · rw [hgroup] at hgo
    obtain ⟨u, hu, hpayload, hstep⟩ := hp.reduce (s := s) stop rest .groupExpression [t] [] rfl rfl rfl
      (hreduces _ hx).1 (builds_expr (fun _ => rfl) rfl he) hgoto
    exact ⟨u, hu, hpayload, n + 1, hn, hgo.trans hstep⟩
  · rw [hunary] at hgo
    obtain ⟨u, hu, hpayload, hstep⟩ := hp.reduce (s := s) stop rest .unaryExpression [t] [] rfl rfl rfl
      (hreduces _ hx).2 (builds_expr (fun _ => rfl) rfl he) hgoto
    exact ⟨u, hu, hpayload, n + 1, hn, hgo.trans hstep⟩
  · exact ⟨t, ht, he, n, Nat.le_of_lt hn, hgo⟩

/-! ## Numbers and names -/

theorem Lexeme.written_eq {t : Token} {symbol : Symbol} {text : String} (h : t.written = ⟨symbol, text⟩) :
    t.symbol = symbol ∧ t.lexeme = text := Lexeme.mk.inj h

theorem reads_number {literal : String} {value : Number} (hv : Number.ofLiteral? literal = some value)
    (hc : Expr.checkedNumber s.limits literal value = .ok (.number literal value)) :
    s.Reads stop level .group [⟨.number, literal⟩] (.number literal value) := by
  intro rest p states stack tokens next hp htokens
  obtain ⟨t, rfl, ht⟩ := List.map_eq_singleton_iff.mp htokens
  obtain ⟨hsymbol, hlexeme⟩ := Lexeme.written_eq ht
  obtain ⟨-, hends, -⟩ := Place.chart_names
  have hshift : s.Goes stop 1 ⟨p.state :: states, stack, t :: next :: rest⟩
      ⟨Place.bar.after [.number] :: p.state :: states, t :: stack, next :: rest⟩ :=
    Goes.shift (by rw [hsymbol]; exact p.shifts_number)
  have hbuilds : s.Builds ⟨[t], stack.head?.map (·.symbol)⟩ .number (.expr (.number literal value)) := by
    intro names
    refine ⟨names, ?_⟩
    have hnumber : s.number t names = (.ok (.number literal value), names) := by
      unfold number
      rw [hlexeme, hv]
      dsimp only
      rw [hc]
      rfl
    show (do return .expr (← s.number (← Phrase.token ⟨[t], _⟩ 0)) : Build Payload) names = _
    rw [Phrase.token_eq rfl, pure_bind, Build.bind_ok hnumber]
    rfl
  obtain ⟨u, hu, hpayload, hstep⟩ := hp.reduce stop rest .number [t] [] rfl rfl rfl
    (hends _ hp.follows.mem_followers).1 hbuilds p.gotos_group
  exact ⟨u, hu, hpayload, 2, by simp, hshift.trans hstep⟩

/-- Reading an identifier succeeds, and the variables in it are remembered. -/
theorem identifier_eq (s : Setting) (name : String) (subscript : Option String) (names : List String) :
    ∃ names', s.identifier name subscript names = (.ok (s.resolve name subscript), names') :=
  ⟨_, rfl⟩

/-- A word is read as what it stands for, directly behind the sign of composition only if it names no function. -/
theorem reads_identifier {name : String} (h : level ≤ Expr.atomLevel ∨ s.catalog.function? name = none) :
    s.Reads stop level .group [⟨.identifier, name⟩] (s.resolve name none) := by
  intro rest p states stack tokens next hp htokens
  obtain ⟨t, rfl, ht⟩ := List.map_eq_singleton_iff.mp htokens
  obtain ⟨hsymbol, hlexeme⟩ := Lexeme.written_eq ht
  obtain ⟨-, hends, -⟩ := Place.chart_names
  have hshift : s.Goes stop 1 ⟨p.state :: states, stack, t :: next :: rest⟩
      ⟨p.named.after [.identifier] :: p.state :: states, t :: stack, next :: rest⟩ :=
    Goes.shift (by rw [hsymbol]; exact p.shifts_identifier)
  have hreduces : Reduces (p.named.after [.identifier]) next.symbol .identifier := by
    have := hends _ hp.follows.mem_followers
    cases p with
    | start => exact this.2.1
    | _ => exact this.2.2.1
  have hbuilds : s.Builds ⟨[t], stack.head?.map (·.symbol)⟩ .identifier (.expr (s.resolve name none)) := by
    intro names
    obtain ⟨names', hidentifier⟩ := identifier_eq s name none names
    refine ⟨names', ?_⟩
    have hname : s.nameOrFunction ⟨[t], stack.head?.map (·.symbol)⟩ = s.identifier name none := by
      unfold nameOrFunction
      rw [Phrase.lexeme_eq rfl, pure_bind, hlexeme]
      split
      · rename_i hcompose hf
        obtain rfl := hp.head_ne.2 hcompose.symm
        rcases h with h | h
        · exact absurd (hp.level_le.trans h) (by decide)
        · cases h.symm.trans hf
      · rfl
    show (do return .expr (← s.nameOrFunction ⟨[t], _⟩) : Build Payload) names = _
    rw [hname, Build.bind_ok hidentifier]
    rfl
  obtain ⟨u, hu, hpayload, hstep⟩ := hp.reduce stop rest .identifier [t] [] rfl rfl rfl
    hreduces hbuilds p.gotos_group
  exact ⟨u, hu, hpayload, 2, by simp, hshift.trans hstep⟩

theorem reads_word {name : String} (h : s.resolve name none = .variable name) :
    s.Reads stop Expr.atomLevel .group [⟨.identifier, name⟩] (.variable name) :=
  h ▸ reads_identifier (.inl (Nat.le_refl _))

/-- The kind of a mark. -/
theorem written_mark {t : Token} {x : Symbol} (hx : x ∈ Lexeme.marks) (h : t.written = .mark x) : t.symbol = x :=
  (congrArg Lexeme.symbol h).trans (Lexeme.mark_symbol hx)

theorem reads_subscript {base sub : String} {symbol : Symbol} {r : Rule}
    (hr : symbol = .number ∧ r = .numberSubscript ∨ symbol = .identifier ∧ r = .nameSubscript)
    (h : s.resolve base (some sub) = .variable (base ++ "_" ++ sub)) :
    s.Reads stop level .group [⟨.identifier, base⟩, .mark .subscript, ⟨symbol, sub⟩]
      (.variable (base ++ "_" ++ sub)) := by
  intro rest p states stack tokens next hp htokens
  obtain ⟨t, tokens, rfl, ht, htokens⟩ := List.map_eq_cons_iff.mp htokens
  obtain ⟨m, tokens, rfl, hm, htokens⟩ := List.map_eq_cons_iff.mp htokens
  obtain ⟨u, rfl, hu⟩ := List.map_eq_singleton_iff.mp htokens
  obtain ⟨htsymbol, htlexeme⟩ := Lexeme.written_eq ht
  obtain ⟨husymbol, hulexeme⟩ := Lexeme.written_eq hu
  have hmsymbol := written_mark (by decide) hm
  obtain ⟨-, hends, hmark, hnumber, hname⟩ := Place.chart_names
  have hbase : s.Goes stop 1 ⟨p.state :: states, stack, t :: m :: u :: next :: rest⟩
      ⟨p.named.after [.identifier] :: p.state :: states, t :: stack, m :: u :: next :: rest⟩ :=
    Goes.shift (by rw [htsymbol]; exact p.shifts_identifier)
  have hscore : s.Goes stop 1
      ⟨p.named.after [.identifier] :: p.state :: states, t :: stack, m :: u :: next :: rest⟩
      ⟨Place.bar.after [.identifier, .subscript] :: p.named.after [.identifier] :: p.state :: states,
        m :: t :: stack, u :: next :: rest⟩ :=
    Goes.shift (by rw [hmsymbol]; exact hmark _ p.named_mem)
  -- the two kinds of subscripts differ in their last state only
  have hlast : ∃ q, Shifts (Place.bar.after [.identifier, .subscript]) symbol q ∧ Reduces q next.symbol r ∧
      Rule.form? r.index = some ⟨r, .group, [.identifier, .subscript, symbol], Rule.name⟩ ∧
      ∀ p : Phrase, s.build p r =
        (do return .expr (← s.identifier (← p.lexeme 0) (some (← p.lexeme 2)))) := by
    have hx := hends _ hp.follows.mem_followers
    rcases hr with ⟨rfl, rfl⟩ | ⟨rfl, rfl⟩
    · exact ⟨_, hnumber, hx.2.2.2.1, rfl, fun _ => rfl⟩
    · exact ⟨_, hname, hx.2.2.2.2, rfl, fun _ => rfl⟩
  obtain ⟨q, hq, hreduces, hform, hbuild⟩ := hlast
  have hsub : s.Goes stop 1
      ⟨Place.bar.after [.identifier, .subscript] :: p.named.after [.identifier] :: p.state :: states,
        m :: t :: stack, u :: next :: rest⟩
      ⟨q :: Place.bar.after [.identifier, .subscript] :: p.named.after [.identifier] :: p.state :: states,
        u :: m :: t :: stack, next :: rest⟩ :=
    Goes.shift (by rw [husymbol]; exact hq)
  have hbuilds : s.Builds ⟨[t, m, u], stack.head?.map (·.symbol)⟩ r
      (.expr (.variable (base ++ "_" ++ sub))) := by
    intro names
    obtain ⟨names', hidentifier⟩ := identifier_eq s base (some sub) names
    refine ⟨names', ?_⟩
    rw [hbuild, Phrase.lexeme_eq rfl, pure_bind, Phrase.lexeme_eq rfl, pure_bind, htlexeme, hulexeme,
      Build.bind_ok hidentifier, h]
    rfl
  obtain ⟨v, hv, hpayload, hstep⟩ := hp.reduce stop rest r [t, m, u]
    [Place.bar.after [.identifier, .subscript], p.named.after [.identifier]] hform rfl rfl hreduces hbuilds
    p.gotos_group
  exact ⟨v, hv, hpayload, 4, by simp, ((hbase.trans hscore).trans hsub).trans hstep⟩

/-! ## Brackets -/

/-- The place behind a round bracket that begins at a place, with the bracket on the stack. -/
theorem Admits.paren (hp : Admits p level states stack next) {l r : Token} (hl : l.symbol = .leftParen)
    (hr : r.symbol = .rightParen) {level' : Nat} : Admits p.opened level' (p.state :: states) (l :: stack) r where
  level_le := by cases p <;> exact Nat.zero_le _
  follows := by rw [hr]; exact ⟨0, rfl, Nat.zero_le _⟩
  length_eq := congrArg (· + 1) hp.length_eq
  entry := by cases p <;> exact congrArg some hl
  opened := .of_ne (by rw [hr]; decide) _

/-- Parentheses hand on what is between them, at any level. -/
theorem Reads.parentheses {lhs : Symbol} {ls : List Lexeme} {e : Expr} (h : s.Reads stop level lhs ls e)
    (hlhs : lhs ∈ operandHeads) {level' : Nat} :
    s.Reads stop level' .group (.mark .leftParen :: (ls ++ [.mark .rightParen])) e := by
  intro rest p states stack tokens next hp htokens
  obtain ⟨l, tokens, rfl, hl, htokens⟩ := List.map_eq_cons_iff.mp htokens
  obtain ⟨tokens, last, rfl, hinner, hlast⟩ := List.map_eq_append_iff.mp htokens
  obtain ⟨r, rfl, hr⟩ := List.map_eq_singleton_iff.mp hlast
  have hl := written_mark (by decide) hl
  have hr := written_mark (by decide) hr
  obtain ⟨hfirst, hparen, -, hends⟩ := Place.chart_brackets
  have hopened : p.opened ∈ [Place.firstParen, .paren] := by cases p <;> simp [Place.opened]
  have hinside : Admits p.opened level (p.state :: states) (l :: stack) r := hp.paren hl hr
  obtain ⟨t, ht, he, n, hn, hgo⟩ := h.lift (next :: rest) hlhs hinside
    p.opened_mem_outer (by rw [hr]; decide) hinner
  have hshiftl : s.Goes stop 1 ⟨p.state :: states, stack, l :: (tokens ++ r :: next :: rest)⟩
      ⟨p.opened.state :: p.state :: states, l :: stack, tokens ++ r :: next :: rest⟩ :=
    Goes.shift_append (by rw [hl]; exact (hfirst p p.mem_all).1)
  have hshiftr : s.Goes stop 1
      ⟨p.opened.after [.expression] :: p.opened.state :: p.state :: states, t :: l :: stack, r :: next :: rest⟩
      ⟨Place.paren.after [.expression, .rightParen] :: p.opened.after [.expression] :: p.opened.state ::
        p.state :: states, r :: t :: l :: stack, next :: rest⟩ :=
    Goes.shift (by rw [hr]; exact hparen _ hopened)
  obtain ⟨u, hu, hpayload, hstep⟩ := hp.reduce stop rest .parentheses [l, t, r]
    [p.opened.after [.expression], p.opened.state] rfl rfl rfl (hends _ hp.follows.mem_followers).1
    (builds_expr (fun _ => rfl) rfl he) p.gotos_group
  refine ⟨u, hu, hpayload, 1 + n + 1 + 1, ?_, ?_⟩
  · rw [List.length_cons, List.length_append]
    simp only [List.length_cons, List.length_nil]
    omega
  · have hrun := ((hshiftl.trans hgo).trans hshiftr).trans hstep
    simpa using hrun

theorem Reads.mono {lhs : Symbol} {ls : List Lexeme} {e : Expr} (h : s.Reads stop level lhs ls e) {level' : Nat}
    (hl : level' ≤ level) : s.Reads stop level' lhs ls e :=
  fun rest _ _ _ _ _ hp htokens => h rest (hp.mono hl) htokens

/-- An operand in its place is read at the level that the place asks for. -/
theorem Reads.placed {lhs : Symbol} {ls : List Lexeme} {e : Expr} (h : s.Reads stop level lhs ls e)
    (hlhs : lhs ∈ operandHeads) (least : Nat) :
    s.Reads stop least (if least ≤ level then lhs else .group) (Lexeme.placed least level ls) e := by
  unfold Lexeme.placed
  split
  · rename_i hle
    exact h.mono hle
  · exact h.parentheses hlhs

/-- Bars hand on the absolute value of what is between them, at any level. -/
theorem Reads.bars {lhs : Symbol} {ls : List Lexeme} {e : Expr} (h : s.Reads stop level lhs ls e)
    (hlhs : lhs ∈ operandHeads) {level' : Nat} :
    s.Reads stop level' .group (.mark .bar :: (ls ++ [.mark .bar])) (.absolute e) := by
  intro rest p states stack tokens next hp htokens
  obtain ⟨l, tokens, rfl, hl, htokens⟩ := List.map_eq_cons_iff.mp htokens
  obtain ⟨tokens, last, rfl, hinner, hlast⟩ := List.map_eq_append_iff.mp htokens
  obtain ⟨r, rfl, hr⟩ := List.map_eq_singleton_iff.mp hlast
  have hl := written_mark (by decide) hl
  have hr := written_mark (by decide) hr
  obtain ⟨hfirst, -, hclose, hends⟩ := Place.chart_brackets
  -- the bar that was read last is open
  have hopen : Open r (l :: stack) := by
    intro _
    rw [List.map_cons, hl]
    exact Bars.openBars_bar hp.head_ne.1
  have hinside : Admits .bar level (p.state :: states) (l :: stack) r :=
    ⟨Nat.zero_le _, by rw [hr]; exact ⟨0, rfl, Nat.zero_le _⟩, congrArg (· + 1) hp.length_eq, congrArg some hl, hopen⟩
  obtain ⟨t, ht, he, n, hn, hgo⟩ := h.lift (next :: rest) hlhs hinside (by decide)
    (by rw [hr]; decide) hinner
  have hshiftl : s.Goes stop 1 ⟨p.state :: states, stack, l :: (tokens ++ r :: next :: rest)⟩
      ⟨Place.bar.state :: p.state :: states, l :: stack, tokens ++ r :: next :: rest⟩ :=
    Goes.shift_append (by rw [hl]; exact (hfirst p p.mem_all).2)
  have hshiftr : s.Goes stop 1
      ⟨Place.bar.after [.expression] :: Place.bar.state :: p.state :: states, t :: l :: stack, r :: next :: rest⟩
      ⟨Place.bar.after [.expression, .bar] :: Place.bar.after [.expression] :: Place.bar.state :: p.state :: states,
        r :: t :: l :: stack, next :: rest⟩ :=
    Goes.shift (by rw [hr]; exact hclose)
  have hbuilds : s.Builds ⟨[l, t, r], stack.head?.map (·.symbol)⟩ .bars (.expr (.absolute e)) := by
    intro names
    refine ⟨names, ?_⟩
    show (do return .expr (.absolute (← Phrase.expr ⟨[l, t, r], _⟩ 1)) : Build Payload) names = _
    rw [Phrase.expr_eq rfl he]
    rfl
  obtain ⟨u, hu, hpayload, hstep⟩ := hp.reduce stop rest .bars [l, t, r]
    [Place.bar.after [.expression], Place.bar.state] rfl rfl rfl (hends _ hp.follows.mem_followers).2 hbuilds
    p.gotos_group
  refine ⟨u, hu, hpayload, 1 + n + 1 + 1, ?_, ?_⟩
  · simp only [List.length_cons, List.length_append, List.length_nil]
    omega
  · have hrun := ((hshiftl.trans hgo).trans hshiftr).trans hstep
    simpa using hrun

end Setting

end Formula
