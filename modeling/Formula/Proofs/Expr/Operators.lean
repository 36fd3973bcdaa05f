import Formula.Proofs.Expr.Reading

/-!
# Reading operators

An operation is read when its operands are read at the levels that it asks for: a factorial behind a factorial or a
piece, a power behind the same and in front of a power at least, a sign in front of another sign or something
tighter, and a sum or a product between what is as tight on the left and tighter on the right. The parser has read
the operand to its end when it sees the operator, because each of these tokens asks for the level of what is in
front of it.
-/

namespace Formula

open Rule (Shifts Gotos Reduces)
open Text (Position)

namespace Setting

variable {s : Setting} {stop : Position}

-- so that states are compared by name and the tables are not computed
attribute [local irreducible] Place.follow Rule.reduction? Rule.tables

variable {p : Place} {level : Nat} {states : List Nat} {stack : List Token} {next : Token}

/-! ## Factorials, powers and signs -/

theorem Reads.factorial {ls : List Lexeme} {e : Expr} (h : s.Reads stop Rule.factorialLevel .group ls e)
    (hc : Expr.checkedFactorial e s.limits.factorial = .ok (.factorial e s.limits.factorial)) :
    s.Reads stop Rule.factorialLevel .group (ls ++ [.mark .factorial]) (.factorial e s.limits.factorial) := by
  intro rest p states stack tokens next hp htokens
  obtain ⟨tokens, last, rfl, hinner, hlast⟩ := List.map_eq_append_iff.mp htokens
  obtain ⟨m, rfl, hm⟩ := List.map_eq_singleton_iff.mp hlast
  have hm := written_mark (by decide) hm
  obtain ⟨hgroup, hends, -⟩ := Place.chart_groups
  obtain ⟨hgoto, hshift, -⟩ := hgroup p p.mem_all
  have hoperand : Admits p Rule.factorialLevel states stack m :=
    hp.before hp.level_le (by rw [hm]; exact ⟨_, rfl, Nat.le_refl _⟩) (by rw [hm]; decide)
  obtain ⟨t, ht, he, n, hn, hgo⟩ := h (next :: rest) hoperand hinner
  have hshift : s.Goes stop 1 ⟨p.after [.group] :: p.state :: states, t :: stack, m :: next :: rest⟩
      ⟨Place.bar.after [.group, .factorial] :: p.after [.group] :: p.state :: states, m :: t :: stack,
        next :: rest⟩ :=
    Goes.shift (by rw [hm]; exact hshift)
  have hbuilds : s.Builds ⟨[t, m], stack.head?.map (·.symbol)⟩ .factorial
      (.expr (.factorial e s.limits.factorial)) := by
    intro names
    refine ⟨names, ?_⟩
    show (do
      let operand ← Phrase.expr ⟨[t, m], _⟩ 0
      return .expr (← .ofExcept (Expr.checkedFactorial operand s.limits.factorial)) : Build Payload) names = _
    rw [Phrase.expr_eq rfl he, pure_bind, hc]
    rfl
  obtain ⟨u, hu, hpayload, hstep⟩ := hp.reduce stop rest .factorial [t, m] [p.after [.group]] rfl rfl rfl
    (hends _ hp.follows.mem_followers) hbuilds hgoto
  refine ⟨u, hu, hpayload, n + 1 + 1, ?_, ?_⟩
  · simp only [List.length_cons, List.length_append, List.length_nil]
    omega
  · have hrun := (hgo.trans hshift).trans hstep
    simpa using hrun

theorem Reads.power {ls ls' : List Lexeme} {a b : Expr} (ha : s.Reads stop (Rule.powerLevel + 1) .group ls a)
    (hb : s.Reads stop Rule.powerLevel .group ls' b)
    (hc : Expr.checkedPower a b s.limits.exponent = .ok (.power a b s.limits.exponent)) :
    s.Reads stop Rule.powerLevel .group (ls ++ .mark .power :: ls') (.power a b s.limits.exponent) := by
  intro rest p states stack tokens next hp htokens
  obtain ⟨left, more, rfl, hleft, htokens⟩ := List.map_eq_append_iff.mp htokens
  obtain ⟨m, right, rfl, hm, hright⟩ := List.map_eq_cons_iff.mp htokens
  have hm := written_mark (by decide) hm
  obtain ⟨hgroup, -, -, hends⟩ := Place.chart_groups
  obtain ⟨hgoto, -, hshift⟩ := hgroup p p.mem_all
  have hbase : Admits p (Rule.powerLevel + 1) states stack m :=
    hp.before (hp.level_le.trans (Nat.le_succ _)) (by rw [hm]; exact ⟨_, rfl, Nat.le_refl _⟩)
      (by rw [hm]; decide)
  obtain ⟨t, ht, hta, n, hn, hgo⟩ := ha (right ++ next :: rest) hbase hleft
  have hshift : s.Goes stop 1 ⟨p.after [.group] :: p.state :: states, t :: stack, m :: (right ++ next :: rest)⟩
      ⟨Place.power.state :: p.after [.group] :: p.state :: states, m :: t :: stack, right ++ next :: rest⟩ :=
    Goes.shift_append (by rw [hm]; exact hshift)
  have hexponent : Admits .power Rule.powerLevel (p.after [.group] :: p.state :: states) (m :: t :: stack) next :=
    ⟨Nat.le_refl _, hp.follows, congrArg (· + 2) hp.length_eq, congrArg some hm, hp.opened.append [m, t]⟩
  obtain ⟨u, hu, hub, k, hk, hgo'⟩ := hb rest hexponent hright
  have hbuilds : s.Builds ⟨[t, m, u], stack.head?.map (·.symbol)⟩ .power
      (.expr (.power a b s.limits.exponent)) := by
    intro names
    refine ⟨names, ?_⟩
    show (do
      let base ← Phrase.expr ⟨[t, m, u], _⟩ 0
      let exponent ← Phrase.expr ⟨[t, m, u], _⟩ 2
      return .expr (← .ofExcept (Expr.checkedPower base exponent s.limits.exponent)) : Build Payload) names = _
    rw [Phrase.expr_eq rfl hta, pure_bind, Phrase.expr_eq rfl hub, pure_bind, hc]
    rfl
  obtain ⟨v, hv, hpayload, hstep⟩ := hp.reduce stop rest .power [t, m, u]
    [Place.power.state, p.after [.group]] rfl rfl rfl (hends _ (hp.follows.mem_closers (Nat.le_refl _))).1
    hbuilds hgoto
  refine ⟨v, hv, hpayload, n + 1 + k + 1, ?_, ?_⟩
  · simp only [List.length_cons, List.length_append]
    omega
  · have hrun := ((hgo.trans hshift).trans hgo').trans hstep
    simpa using hrun

/-- What a sign makes of a tree. -/
def signed : Symbol → Expr → Expr
  | .plus => .pos
  | _ => .neg

theorem Reads.sign {x lhs : Symbol} {ls : List Lexeme} {e : Expr} (h : s.Reads stop Rule.signLevel lhs ls e)
    (hlhs : lhs = .group ∨ lhs = .unary) (hx : x = .plus ∨ x = .minus) :
    s.Reads stop Rule.signLevel .unary (.mark x :: ls) (signed x e) := by
  intro rest p states stack tokens next hp htokens
  obtain ⟨m, tokens, rfl, hm, hinner⟩ := List.map_eq_cons_iff.mp htokens
  obtain ⟨-, -, hfirst, hends⟩ := Place.chart_groups
  obtain ⟨hplus, hminus, hgoto⟩ := hfirst p (Place.mem_signed hp.level_le)
  have hcloses := hends _ (hp.follows.mem_closers (by decide))
  have hsymbol : m.symbol = x := written_mark (by rcases hx with rfl | rfl <;> decide) hm
  -- the four rules differ in the sign and in what the operand was read as
  have hrule : ∃ (q : Place) (r : Rule), q.level = Rule.signLevel ∧ q.entry? = some x ∧
      Shifts p.state x q.state ∧
      Reduces (q.after [lhs]) next.symbol r ∧ Rule.form? r.index = some ⟨r, .unary, [x, lhs], Rule.sign⟩ ∧
      ∀ p : Phrase, s.build p r = (do return .expr (signed x (← p.expr 1))) := by
    rcases hx with rfl | rfl <;> rcases hlhs with rfl | rfl
    · exact ⟨.plus, .plusGroup, rfl, rfl, hplus, hcloses.2.1, rfl, fun _ => rfl⟩
    · exact ⟨.plus, .plusUnary, rfl, rfl, hplus, hcloses.2.2.1, rfl, fun _ => rfl⟩
    · exact ⟨.minus, .minusGroup, rfl, rfl, hminus, hcloses.2.2.2.1, rfl, fun _ => rfl⟩
    · exact ⟨.minus, .minusUnary, rfl, rfl, hminus, hcloses.2.2.2.2, rfl, fun _ => rfl⟩
  obtain ⟨q, r, hlevel, hentry, hshift, hreduces, hform, hbuild⟩ := hrule
  have hshift : s.Goes stop 1 ⟨p.state :: states, stack, m :: (tokens ++ next :: rest)⟩
      ⟨q.state :: p.state :: states, m :: stack, tokens ++ next :: rest⟩ :=
    Goes.shift_append (by rw [hsymbol]; exact hshift)
  have hoperand : Admits q Rule.signLevel (p.state :: states) (m :: stack) next :=
    ⟨Nat.le_of_eq hlevel, hp.follows, congrArg (· + 1) hp.length_eq, by rw [hentry, ← hsymbol]; rfl,
      hp.opened.append [m]⟩
  obtain ⟨t, ht, he, n, hn, hgo⟩ := h rest hoperand hinner
  have hbuilds : s.Builds ⟨[m, t], stack.head?.map (·.symbol)⟩ r (.expr (signed x e)) := by
    intro names
    refine ⟨names, ?_⟩
    rw [hbuild, Phrase.expr_eq rfl he]
    rfl
  obtain ⟨u, hu, hpayload, hstep⟩ := hp.reduce stop rest r [m, t] [q.state] hform rfl rfl hreduces hbuilds hgoto
  refine ⟨u, hu, hpayload, 1 + n + 1, ?_, (hshift.trans hgo).trans hstep⟩
  rw [List.length_cons]
  omega

/-! ## Sums and products -/

theorem Reads.binary {op : Operator} {lhs lhs' : Symbol} {ls ls' : List Lexeme} {a b : Expr}
    (ha : s.Reads stop op.level lhs ls a) (hlhs : lhs ∈ operandHeads)
    (hb : s.Reads stop (op.level + 1) lhs' ls' b) (hlhs' : lhs' ∈ operandHeads) :
    s.Reads stop op.level .expression (ls ++ .mark op.token :: ls') (.binary op a b) := by
  intro rest p states stack tokens next hp htokens
  obtain ⟨left, more, rfl, hleft, htokens⟩ := List.map_eq_append_iff.mp htokens
  obtain ⟨m, right, rfl, hm, hright⟩ := List.map_eq_cons_iff.mp htokens
  have hm : m.symbol = op.token := written_mark (by cases op <;> decide) hm
  have hlevel : op.level ≤ Rule.productLevel := by cases op <;> decide
  have houter := Place.mem_outer (hp.level_le.trans hlevel)
  obtain ⟨hgoto, -, hshifts, hends⟩ := Place.chart_sums
  have hfollows : m.symbol.Follows op.level := by
    rw [hm]
    cases op <;> exact ⟨_, rfl, Nat.le_refl _⟩
  have hoperand : Admits p op.level states stack m :=
    hp.before hp.level_le hfollows (by rw [hm]; cases op <;> decide)
  obtain ⟨t, ht, hta, n, hn, hgo⟩ := ha.lift (right ++ next :: rest) hlhs hoperand houter
    (hfollows.mem_closers (hlevel.trans (by decide))) hleft
  have hshift : s.Goes stop 1 ⟨p.after [.expression] :: p.state :: states, t :: stack, m :: (right ++ next :: rest)⟩
      ⟨(Place.operator op).state :: p.after [.expression] :: p.state :: states, m :: t :: stack,
        right ++ next :: rest⟩ :=
    Goes.shift_append (by rw [hm]; exact hshifts p houter op (Place.mem_operators op) hp.level_le)
  have hright' : Admits (.operator op) (op.level + 1) (p.after [.expression] :: p.state :: states)
      (m :: t :: stack) next :=
    ⟨Nat.le_refl _, hp.follows.mono (Nat.le_succ _), congrArg (· + 2) hp.length_eq, congrArg some hm,
      hp.opened.append [m, t]⟩
  have hcloser := hp.follows.mem_closers (hlevel.trans (by decide))
  obtain ⟨u, hu, hub, k, hk, hgo'⟩ := hb.lift rest hlhs' hright' (by cases op <;> decide) hcloser hright
  -- the operator binds the operands before what follows does
  have hreduces : Reduces ((Place.operator op).after [.expression]) next.symbol op.rule := by
    obtain ⟨floor, hfloor, hle⟩ := hp.follows
    exact hends op (Place.mem_operators op) _ hcloser (by rw [hfloor]; exact hle)
  have hform : ∃ prec,
      Rule.form? op.rule.index = some ⟨op.rule, .expression, [.expression, op.token, .expression], prec⟩ ∧
      ∀ p : Phrase, s.build p op.rule = (do return .expr (← binaryOf p op)) := by
    cases op <;> exact ⟨_, rfl, fun _ => rfl⟩
  obtain ⟨prec, hform, hbuild⟩ := hform
  have hbuilds : s.Builds ⟨[t, m, u], stack.head?.map (·.symbol)⟩ op.rule (.expr (.binary op a b)) := by
    intro names
    refine ⟨names, ?_⟩
    rw [hbuild, binaryOf, Phrase.expr_eq rfl hta, pure_bind, Phrase.expr_eq rfl hub]
    rfl
  obtain ⟨v, hv, hpayload, hstep⟩ := hp.reduce stop rest op.rule [t, m, u]
    [(Place.operator op).state, p.after [.expression]] hform rfl rfl hreduces hbuilds (hgoto p houter).1
  refine ⟨v, hv, hpayload, n + 1 + k + 1, ?_, ?_⟩
  · simp only [List.length_cons, List.length_append]
    omega
  · have hrun := ((hgo.trans hshift).trans hgo').trans hstep
    simpa using hrun

end Setting

end Formula
