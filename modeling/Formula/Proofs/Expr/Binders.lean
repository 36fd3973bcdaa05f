import Formula.Proofs.Expr.Makes
import Formula.Proofs.Expr.Precedence

/-!
# Reading compositions and binders

What is not made of levels: a composition, a limit and a big operator. Each is read as a group when its parts are. A
binder begins with a row of tokens that leads to a place of its own (`Admits.enter`), and what it binds in is read like
the operand of a sign, up to the next operator. A function by itself is read behind the sign of composition only
(`reads_function`), so what is composed is read at that place (`ReadsAt`) and need not be read anywhere else.
-/

namespace Formula

open Rule (Shifts ShiftsAll Gotos Reduces)
open Text (Position)

namespace Lexeme

/-- A limit up to where its variable goes. -/
def limitHead (target : String) : List Lexeme :=
  [⟨.limit, "lim"⟩, ⟨.subscript, "_"⟩, ⟨.leftParen, "("⟩, ⟨.identifier, target⟩, ⟨.arrow, "->"⟩]

/-- A big operator up to where its variable begins. -/
def bigHead (op : BigOperator) (var : String) : List Lexeme :=
  [⟨op.token, Expr.bigWord op⟩, ⟨.subscript, "_"⟩, ⟨.leftParen, "("⟩, ⟨.identifier, var⟩, ⟨.equal, "="⟩]

end Lexeme

namespace Setting

variable {s : Setting} {stop : Position}

-- so that states are compared by name and the tables are not computed
attribute [local irreducible] Place.follow Rule.reduction? Rule.tables

variable {p : Place} {level : Nat} {states : List Nat} {stack : List Token} {next : Token}

/-! ## Compositions -/

/-- A row of lexemes is read as one token that carries a tree, at one place. -/
def ReadsAt (s : Setting) (stop : Position) (p : Place) (level : Nat) (lhs : Symbol) (ls : List Lexeme) (e : Expr) :
    Prop :=
  ∀ (rest : List Token) {states : List Nat} {stack tokens : List Token} {next : Token},
    Admits p level states stack next → tokens.map Token.written = ls →
      ∃ t : Token, t.symbol = lhs ∧ t.payload = .expr e ∧ ∃ n < 3 * tokens.length,
        s.Goes stop n ⟨p.state :: states, stack, tokens ++ next :: rest⟩
          ⟨p.after [lhs] :: p.state :: states, t :: stack, next :: rest⟩

theorem Reads.at {lhs : Symbol} {ls : List Lexeme} {e : Expr} (h : s.Reads stop level lhs ls e) (p : Place) :
    s.ReadsAt stop p level lhs ls e :=
  fun rest _ _ _ _ hp htokens => h rest hp htokens

/-- Behind the sign of composition the name of a function is the function. -/
theorem reads_function {f : Function} (hf : s.catalog.function? f.name = some f) :
    s.ReadsAt stop .compose level .group [⟨.identifier, f.name⟩] (.function f) := by
  intro rest states stack tokens next hp htokens
  obtain ⟨t, rfl, ht⟩ := List.map_eq_singleton_iff.mp htokens
  obtain ⟨hsymbol, hlexeme⟩ := Lexeme.written_eq ht
  obtain ⟨-, hends, -⟩ := Place.chart_names
  have hshift : s.Goes stop 1 ⟨Place.compose.state :: states, stack, t :: next :: rest⟩
      ⟨Place.bar.after [.identifier] :: Place.compose.state :: states, t :: stack, next :: rest⟩ :=
    Goes.shift (by rw [hsymbol]; exact Place.compose.shifts_identifier)
  have hbuilds : s.Builds ⟨[t], stack.head?.map (·.symbol)⟩ .identifier (.expr (.function f)) :=
    Makes.builds (.function ⟨t, rfl, hlexeme⟩ hp.entry hf)
  obtain ⟨u, hu, hpayload, hstep⟩ := hp.reduce stop rest .identifier [t] [] rfl rfl rfl
    (hends _ hp.follows.mem_followers).2.2.1 hbuilds Place.compose.gotos_group
  exact ⟨u, hu, hpayload, 2, by simp, hshift.trans hstep⟩

/-- A composition is read when what is composed is read behind its sign. -/
theorem ReadsAt.composition {f : Function} {ls : List Lexeme} {e : Expr}
    (h : s.ReadsAt stop .compose (Expr.atomLevel + 1) .group ls e) (hf : s.catalog.function? f.name = some f) :
    s.Reads stop Rule.compositionLevel .group (⟨.identifier, f.name⟩ :: ⟨.compose, "@"⟩ :: ls)
      (.compose (.function f) e) := by
  intro rest p states stack tokens next hp htokens
  obtain ⟨t, tokens, rfl, ht, htokens⟩ := List.map_eq_cons_iff.mp htokens
  obtain ⟨m, inner, rfl, hm, hinner⟩ := List.map_eq_cons_iff.mp htokens
  obtain ⟨htsymbol, htlexeme⟩ := Lexeme.written_eq ht
  obtain ⟨hmsymbol, -⟩ := Lexeme.written_eq hm
  obtain ⟨hcompose, hends⟩ := Place.chart_compositions
  have hname : s.Goes stop 1 ⟨p.state :: states, stack, t :: m :: (inner ++ next :: rest)⟩
      ⟨p.named.after [.identifier] :: p.state :: states, t :: stack, m :: (inner ++ next :: rest)⟩ :=
    Goes.shift (by rw [htsymbol]; exact p.shifts_identifier)
  have hsign : s.Goes stop 1
      ⟨p.named.after [.identifier] :: p.state :: states, t :: stack, m :: (inner ++ next :: rest)⟩
      ⟨Place.compose.state :: p.named.after [.identifier] :: p.state :: states, m :: t :: stack,
        inner ++ next :: rest⟩ :=
    Goes.shift_append (by rw [hmsymbol]; exact hcompose _ p.named_mem)
  have hadmits : Admits .compose (Expr.atomLevel + 1) (p.named.after [.identifier] :: p.state :: states)
      (m :: t :: stack) next :=
    ⟨Nat.le_refl _, hp.follows.mono (by decide), congrArg (· + 2) hp.length_eq, congrArg some hmsymbol,
      hp.opened.append [m, t]⟩
  obtain ⟨u, -, hu, n, hn, hgo⟩ := h rest hadmits hinner
  have hbuilds : s.Builds ⟨[t, m, u], stack.head?.map (·.symbol)⟩ .composition (.expr (.compose (.function f) e)) :=
    Makes.builds (.composition ⟨t, rfl, htlexeme⟩ hf ⟨u, rfl, hu⟩)
  obtain ⟨v, hv, hpayload, hstep⟩ := hp.reduce stop rest .composition [t, m, u]
    [Place.compose.state, p.named.after [.identifier]] rfl rfl rfl (hends _ (hp.follows.mem_closers (by decide)))
    hbuilds p.gotos_group
  refine ⟨v, hv, hpayload, 1 + 1 + n + 1, ?_, ((hname.trans hsign).trans hgo).trans hstep⟩
  simp only [List.length_cons]
  omega

/-! ## Limits -/

variable (s stop) in
/-- A row of tokens that leads from one place to another is shifted, and what is admitted there is read. -/
theorem Admits.enter (hp : Admits p level states stack next) {q : Place} (hq : q.path ≠ [])
    (hshifts : ShiftsAll p.state q.path ∧ p.after q.path = q.state) {front : List Token}
    (hfront : front.map (·.symbol) = q.path) {input : List Token} (hinput : input ≠ []) :
    ∃ above : List Nat, above.length + 1 = front.length ∧
      s.Goes stop front.length ⟨p.state :: states, stack, front ++ input⟩
        ⟨q.state :: (above ++ p.state :: states), front.reverse ++ stack, input⟩ ∧
      ∀ {level' : Nat} {next' : Token}, q.level ≤ level' → next'.symbol.Follows level' → Open next' stack →
        Admits q level' (above ++ p.state :: states) (front.reverse ++ stack) next' := by
  obtain ⟨x, xs, hx⟩ := List.exists_cons_of_ne_nil hq
  have hlength : front.length = xs.length + 1 := by
    rw [← List.length_map (·.symbol), hfront, hx, List.length_cons]
  obtain ⟨above, habove, hgo⟩ :=
    Goes.shifts s stop p.state states stack (hfront.trans hx) (hx ▸ hshifts.1) hinput
  rw [← hx, ← Place.after, hshifts.2, ← hlength] at hgo
  refine ⟨above, by rw [habove, hlength], hgo, fun hl hf ho => ⟨hl, hf, ?_, ?_, ho.append _⟩⟩
  · rw [List.length_append, List.length_append, List.length_reverse, List.length_cons, habove, hlength, hp.length_eq]
    omega
  · have hlast : front.getLast?.map (·.symbol) = q.entry? := by rw [← List.getLast?_map, hfront, Place.entry?]
    rw [← hlast, List.head?_append_of_ne_nil _ (by simpa using List.length_pos_iff.mp (by omega)), List.head?_reverse]

theorem map_symbol_of_written {tokens : List Token} {ls : List Lexeme} (h : tokens.map Token.written = ls) :
    tokens.map (·.symbol) = ls.map (·.symbol) := by
  rw [← h, List.map_map]
  rfl

/-- The head of a binder is five tokens, and the fourth is its variable. -/
theorem exists_head {front : List Token} {l₀ l₁ l₂ l₃ l₄ : Lexeme}
    (h : front.map Token.written = [l₀, l₁, l₂, l₃, l₄]) :
    ∃ t₀ t₁ t₂ t₃ t₄, front = [t₀, t₁, t₂, t₃, t₄] ∧ t₃.lexeme = l₃.text := by
  obtain ⟨t₀, _, rfl, -, h⟩ := List.map_eq_cons_iff.mp h
  obtain ⟨t₁, _, rfl, -, h⟩ := List.map_eq_cons_iff.mp h
  obtain ⟨t₂, _, rfl, -, h⟩ := List.map_eq_cons_iff.mp h
  obtain ⟨t₃, _, rfl, h₃, h⟩ := List.map_eq_cons_iff.mp h
  obtain ⟨t₄, rfl, -⟩ := List.map_eq_singleton_iff.mp h
  exact ⟨t₀, t₁, t₂, t₃, t₄, rfl, congrArg Lexeme.text h₃⟩

theorem Reads.limit {target : String} {lhs : Symbol} {ls ls' : List Lexeme} {a b : Expr}
    (ha : s.Reads stop 0 lhs ls a) (hlhs : lhs ∈ operandHeads) (hb : s.Reads stop Rule.nameLevel .group ls' b) :
    s.Reads stop Rule.nameLevel .group (Lexeme.limitHead target ++ (ls ++ .mark .rightParen :: ls'))
      (.limit target a b) := by
  intro rest p states stack tokens next hp htokens
  obtain ⟨front, more, rfl, hfront, htokens⟩ := List.map_eq_append_iff.mp htokens
  obtain ⟨inner, more, rfl, hinner, htokens⟩ := List.map_eq_append_iff.mp htokens
  obtain ⟨r, body, rfl, hr, hbody⟩ := List.map_eq_cons_iff.mp htokens
  have hr := written_mark (by decide) hr
  obtain ⟨hheads, hclose, hends⟩ := Place.chart_limits
  have hinput : inner ++ r :: (body ++ next :: rest) ≠ [] := by simp
  obtain ⟨above, habove, hgo, hadmits⟩ := hp.enter s stop (by simp [Place.path]) (hheads p p.mem_all)
    (map_symbol_of_written hfront) hinput
  obtain ⟨t₀, t₁, t₂, t₃, t₄, rfl, hname⟩ := exists_head hfront
  have hr0 : r.symbol.Follows 0 := by
    rw [hr]
    exact ⟨0, rfl, Nat.le_refl _⟩
  obtain ⟨t, -, ht, n, hn, hgo'⟩ := ha.lift (body ++ next :: rest) hlhs
    (hadmits (Nat.le_refl _) hr0 (.of_ne (by rw [hr]; decide) _)) (by decide) (by rw [hr]; decide) hinner
  have hshift : s.Goes stop 1
      ⟨Place.approach.after [.expression] :: Place.approach.state :: (above ++ p.state :: states),
        t :: t₄ :: t₃ :: t₂ :: t₁ :: t₀ :: stack, r :: (body ++ next :: rest)⟩
      ⟨Place.limitBody.state :: Place.approach.after [.expression] :: Place.approach.state ::
        (above ++ p.state :: states), r :: t :: t₄ :: t₃ :: t₂ :: t₁ :: t₀ :: stack, body ++ next :: rest⟩ :=
    Goes.shift_append (by rw [hr]; exact hclose)
  have hlength : (above ++ p.state :: states).length + 2 = stack.length + 7 := by
    simp only [List.length_append, List.length_cons, hp.length_eq, List.length_nil] at habove ⊢
    omega
  have hbodyAdmits : Admits .limitBody Rule.nameLevel
      (Place.approach.after [.expression] :: Place.approach.state :: (above ++ p.state :: states))
      (r :: t :: t₄ :: t₃ :: t₂ :: t₁ :: t₀ :: stack) next :=
    ⟨Nat.le_refl _, hp.follows, hlength, congrArg some hr, hp.opened.append [r, t, t₄, t₃, t₂, t₁, t₀]⟩
  obtain ⟨u, -, hu, k, hk, hgo''⟩ := hb rest hbodyAdmits hbody
  have hbuilds : s.Builds ⟨[t₀, t₁, t₂, t₃, t₄, t, r, u], stack.head?.map (·.symbol)⟩ .limit
      (.expr (.limit target a b)) :=
    Makes.builds (.limit ⟨t₃, rfl, hname⟩ ⟨t, rfl, ht⟩ ⟨u, rfl, hu⟩)
  obtain ⟨v, hv, hpayload, hstep⟩ := hp.reduce stop rest .limit [t₀, t₁, t₂, t₃, t₄, t, r, u]
    (Place.limitBody.state :: Place.approach.after [.expression] :: Place.approach.state :: above) rfl rfl
    (by simpa using habove) (hends _ (hp.follows.mem_closers (by decide))) hbuilds p.gotos_group
  refine ⟨v, hv, hpayload, 5 + n + 1 + k + 1, ?_, ?_⟩
  · simp only [List.length_cons, List.length_append, List.length_nil]
    omega
  · have hrun := (((hgo.trans hgo').trans hshift).trans hgo'').trans hstep
    simpa using hrun

/-! ## Big operators -/

/-- A bound in braces is read to its end, since what follows begins an operand. -/
theorem Reads.bound {op : BigOperator} {lhs : Symbol} {ls : List Lexeme} {e : Expr} (h : s.Reads stop 0 lhs ls e)
    (hlhs : lhs ∈ operandHeads) {l r : Token} (hl : l.symbol = .leftBrace) (hr : r.symbol = .rightBrace)
    (hs : states.length = stack.length) (hnext : next.symbol ∈ Symbol.beginners) {tokens : List Token}
    (htokens : tokens.map Token.written = ls) (rest : List Token) {bottom : Nat}
    (hbottom : bottom = (Place.lower op).after [.expression, .rightParen, .power]) :
    ∃ t : Token, t.symbol = .bound ∧ t.payload = .expr e ∧ s.Goes stop (3 * tokens.length + 3)
      ⟨bottom :: states, stack, l :: (tokens ++ r :: next :: rest)⟩
      ⟨(Place.bigBody op).state :: bottom :: states, t :: stack, next :: rest⟩ := by
  obtain ⟨-, -, -, hopen, hclose, hends, hgoto, -⟩ := Place.chart_bigs op (Place.mem_bigOperators op)
  rw [← hbottom] at hopen hgoto
  have hshiftl : s.Goes stop 1 ⟨bottom :: states, stack, l :: (tokens ++ r :: next :: rest)⟩
      ⟨(Place.upper op).state :: bottom :: states, l :: stack, tokens ++ r :: next :: rest⟩ :=
    Goes.shift_append (by rw [hl]; exact hopen)
  have hadmits : Admits (.upper op) 0 (bottom :: states) (l :: stack) r :=
    ⟨Nat.le_refl _, by rw [hr]; exact ⟨0, rfl, Nat.le_refl _⟩, congrArg (· + 1) hs, congrArg some hl,
      .of_ne (by rw [hr]; decide) _⟩
  obtain ⟨t, -, ht, n, hn, hgo⟩ := h.lift (next :: rest) hlhs hadmits (Place.mem_outer (Nat.zero_le _))
    (by rw [hr]; decide) htokens
  have hshiftr : s.Goes stop 1
      ⟨(Place.upper op).after [.expression] :: (Place.upper op).state :: bottom :: states, t :: l :: stack,
        r :: next :: rest⟩
      ⟨(Place.upper op).after [.expression, .rightBrace] :: (Place.upper op).after [.expression] ::
        (Place.upper op).state :: bottom :: states, r :: t :: l :: stack, next :: rest⟩ :=
    Goes.shift (by rw [hr]; exact hclose)
  obtain ⟨u, hu, hpayload, hstep⟩ := Goes.reduce stop rest .bracesBound [l, t, r]
    [(Place.upper op).after [.expression], (Place.upper op).state] rfl rfl rfl hs (.inl (hends _ hnext))
    (builds_expr (fun _ => rfl) rfl ht) hgoto
  exact ⟨u, hu, hpayload, (((hshiftl.trans hgo).trans hshiftr).trans hstep).mono (by omega)⟩

/-- A big operator is read when its ends and its body are. -/
theorem Reads.big {op : BigOperator} {var : String} {lhs lhs' : Symbol} {ls ls' ls'' : List Lexeme} {a b c : Expr}
    (ha : s.Reads stop 0 lhs ls a) (hlhs : lhs ∈ operandHeads) (hb : s.Reads stop 0 lhs' ls' b)
    (hlhs' : lhs' ∈ operandHeads) (hc : s.Reads stop Rule.nameLevel .group ls'' c)
    (hhead : ∃ l ∈ ls''.head?, l.symbol ∈ Symbol.beginners) :
    s.Reads stop Rule.nameLevel .group
      (Lexeme.bigHead op var ++ (ls ++ .mark .rightParen :: .mark .power :: ⟨.leftBrace, "\x7b"⟩ ::
        (ls' ++ ⟨.rightBrace, "\x7d"⟩ :: ls''))) (.big op var a b c) := by
  intro rest p states stack tokens next hp htokens
  obtain ⟨front, more, rfl, hfront, htokens⟩ := List.map_eq_append_iff.mp htokens
  obtain ⟨first, more, rfl, hfirst, htokens⟩ := List.map_eq_append_iff.mp htokens
  obtain ⟨r, more, rfl, hr, htokens⟩ := List.map_eq_cons_iff.mp htokens
  obtain ⟨m, more, rfl, hm, htokens⟩ := List.map_eq_cons_iff.mp htokens
  obtain ⟨l, more, rfl, hl, htokens⟩ := List.map_eq_cons_iff.mp htokens
  obtain ⟨second, more, rfl, hsecond, htokens⟩ := List.map_eq_append_iff.mp htokens
  obtain ⟨r', body, rfl, hr', hbody⟩ := List.map_eq_cons_iff.mp htokens
  have hr := written_mark (by decide) hr
  have hm := written_mark (by decide) hm
  have hl := (Lexeme.written_eq hl).1
  have hr' := (Lexeme.written_eq hr').1
  obtain ⟨x, xs, hx, hxs⟩ : ∃ x xs, body ++ next :: rest = x :: xs ∧ x.symbol ∈ Symbol.beginners := by
    obtain ⟨l, hl, hmem⟩ := hhead
    rw [← hbody, List.head?_map, Option.mem_map] at hl
    obtain ⟨x, hx, rfl⟩ := hl
    obtain ⟨xs, rfl⟩ := List.head?_eq_some_iff.mp hx
    exact ⟨x, xs ++ next :: rest, rfl, hmem⟩
  obtain ⟨hheads, hclose, hpower, -, -, -, -, hends⟩ := Place.chart_bigs op (Place.mem_bigOperators op)
  -- the head and the lower end
  have hinput : first ++ r :: (m :: l :: (second ++ r' :: (body ++ next :: rest))) ≠ [] := by simp
  obtain ⟨above, habove, hgoHead, hadmits⟩ := hp.enter s stop (by simp [Place.path]) (hheads p p.mem_all)
    (map_symbol_of_written hfront) hinput
  obtain ⟨t₀, t₁, t₂, t₃, t₄, rfl, hname⟩ := exists_head hfront
  have hr0 : r.symbol.Follows 0 := by
    rw [hr]
    exact ⟨0, rfl, Nat.le_refl _⟩
  obtain ⟨t, -, ht, n, hn, hgoLower⟩ := ha.lift (m :: l :: (second ++ r' :: (body ++ next :: rest))) hlhs
    (hadmits (Nat.le_refl _) hr0 (.of_ne (by rw [hr]; decide) _)) (Place.mem_outer (Nat.zero_le _))
    (by rw [hr]; decide) hfirst
  have hshiftr : s.Goes stop 1
      ⟨(Place.lower op).after [.expression] :: (Place.lower op).state :: (above ++ p.state :: states),
        t :: t₄ :: t₃ :: t₂ :: t₁ :: t₀ :: stack, r :: m :: l :: (second ++ r' :: (body ++ next :: rest))⟩
      ⟨(Place.lower op).after [.expression, .rightParen] :: (Place.lower op).after [.expression] ::
        (Place.lower op).state :: (above ++ p.state :: states), r :: t :: t₄ :: t₃ :: t₂ :: t₁ :: t₀ :: stack,
        m :: l :: (second ++ r' :: (body ++ next :: rest))⟩ :=
    Goes.shift (by rw [hr]; exact hclose)
  have hshiftm : s.Goes stop 1
      ⟨(Place.lower op).after [.expression, .rightParen] :: (Place.lower op).after [.expression] ::
        (Place.lower op).state :: (above ++ p.state :: states), r :: t :: t₄ :: t₃ :: t₂ :: t₁ :: t₀ :: stack,
        m :: l :: (second ++ r' :: (body ++ next :: rest))⟩
      ⟨(Place.lower op).after [.expression, .rightParen, .power] :: (Place.lower op).after [.expression, .rightParen] ::
        (Place.lower op).after [.expression] :: (Place.lower op).state :: (above ++ p.state :: states),
        m :: r :: t :: t₄ :: t₃ :: t₂ :: t₁ :: t₀ :: stack, l :: (second ++ r' :: (body ++ next :: rest))⟩ :=
    Goes.shift (by rw [hm]; exact hpower)
  -- the bound
  have hlength : (above ++ p.state :: states).length = stack.length + 5 := by
    simp only [List.length_append, List.length_cons, hp.length_eq, List.length_nil] at habove ⊢
    omega
  have hlength' : ((Place.lower op).after [.expression, .rightParen] :: (Place.lower op).after [.expression] ::
      (Place.lower op).state :: (above ++ p.state :: states)).length =
        (m :: r :: t :: t₄ :: t₃ :: t₂ :: t₁ :: t₀ :: stack).length := by
    simp only [List.length_cons, hlength]
  obtain ⟨u, husymbol, hu, hgoUpper⟩ := hb.bound hlhs' hl hr' hlength' hxs hsecond xs rfl
  rw [← hx] at hgoUpper
  -- the body
  have hbodyAdmits : Admits (.bigBody op) Rule.nameLevel
      ((Place.lower op).after [.expression, .rightParen, .power] :: (Place.lower op).after [.expression, .rightParen] ::
        (Place.lower op).after [.expression] :: (Place.lower op).state :: (above ++ p.state :: states))
      (u :: m :: r :: t :: t₄ :: t₃ :: t₂ :: t₁ :: t₀ :: stack) next :=
    ⟨Nat.le_refl _, hp.follows, by simp only [List.length_cons, hlength], congrArg some husymbol,
      hp.opened.append [u, m, r, t, t₄, t₃, t₂, t₁, t₀]⟩
  obtain ⟨w, -, hw, k, hk, hgoBody⟩ := hc rest hbodyAdmits hbody
  have hform : ∃ prec, Rule.form? op.rule.index = some ⟨op.rule, .group,
      [op.token, .subscript, .leftParen, .identifier, .equal, .expression, .rightParen, .power, .bound, .group], prec⟩ ∧
      (op.rule, op) ∈ Rule.bigOperators := by
    cases op <;> exact ⟨_, rfl, by decide⟩
  obtain ⟨prec, hform, hrule⟩ := hform
  have hbuilds : s.Builds ⟨[t₀, t₁, t₂, t₃, t₄, t, r, m, u, w], stack.head?.map (·.symbol)⟩ op.rule
      (.expr (.big op var a b c)) :=
    Makes.builds (.big hrule ⟨t₃, rfl, hname⟩ ⟨t, rfl, ht⟩ ⟨u, rfl, hu⟩ ⟨w, rfl, hw⟩)
  obtain ⟨v, hv, hpayload, hstep⟩ := hp.reduce stop rest op.rule [t₀, t₁, t₂, t₃, t₄, t, r, m, u, w]
    ((Place.bigBody op).state :: (Place.lower op).after [.expression, .rightParen, .power] ::
      (Place.lower op).after [.expression, .rightParen] :: (Place.lower op).after [.expression] ::
      (Place.lower op).state :: above) hform rfl
    (by simpa using habove) (hends _ (hp.follows.mem_closers (by decide))) hbuilds p.gotos_group
  refine ⟨v, hv, hpayload, 5 + n + 1 + 1 + (3 * second.length + 3) + k + 1, ?_, ?_⟩
  · simp only [List.length_cons, List.length_append, List.length_nil]
    omega
  · have hrun := (((((hgoHead.trans hgoLower).trans hshiftr).trans hshiftm).trans hgoUpper).trans hgoBody).trans hstep
    simpa using hrun

end Setting

end Formula
