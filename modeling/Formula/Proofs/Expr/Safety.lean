import Formula.Proofs.Expr.Turns
import Formula.Proofs.LR.Termination

/-!
# The notation parser meets no fault

Whatever row of tokens is read, a reduction finds on the stack what its rule looks up: below every symbol that was
reduced to stands a tree, and below `arguments` a list of them (`Token.Filled`). So an action that builds can only
fail with an error of the text (`Build.Sound`, `sound_build`), the same is true of a turn that ends a run, and the fuel
of a run lasts (`fuel_lasts`): every right-hand side is heavier than its left-hand side, and the end of the input is on
none of them. `parseTokens_faultless` puts these together. A lexeme is only unrecognized if it is that of a number
without a value (`Error.IsOf`, `run_isOf`).
-/

namespace Formula

open LR (Config Leads)
open Text (Position Span)

/-- The errors that say what is wrong with a text. -/
def Error.IsOfText : Error → Prop
  | unrecognized .. | unexpected .. | unexpectedEnd _ | numberTooLarge .. | exponentTooLarge .. | factorialTooLarge ..
  | invalidDomain _ | invalidCall .. | arityMismatch _ | unknownFunction _ => True
  | invalidParameter .. | notADefinition .. | notCallable _ | timedOut _ | workerLost | grammar _ | fault _ => False

/-- The errors of a text with these tokens. A lexeme is unrecognized only if it is that of a number and has no value. -/
structure Error.IsOf (tokens : List Token) (e : Error) : Prop where
  isOfText : e.IsOfText
  unrecognized : ∀ {lexeme : String} {position : Position}, e = .unrecognized lexeme position →
    ∃ t ∈ tokens, t.symbol = .number ∧ t.lexeme = lexeme ∧ Number.ofLiteral? lexeme = none

/-- What was reduced to carries a tree, or trees in the case of arguments. -/
def Token.Filled (t : Token) : Prop :=
  t.symbol.isTerminal = false →
    if t.symbol = .arguments then ∃ es, t.payload = .args es else ∃ e, t.payload = .expr e

/-! ## Actions that build -/

/-- The action fails with errors of a text with these tokens only. -/
structure Build.Sound {α : Type} (tokens : List Token) (x : Build α) : Prop where
  isOf : ∀ {names names' : List String} {e : Error}, x names = (.error e, names') → e.IsOf tokens

namespace Build.Sound

variable {α β : Type} {tokens : List Token}

theorem pure (a : α) : Sound tokens (Pure.pure a) := ⟨fun h => nomatch h⟩

theorem throw {e : Error} (h : e.IsOf tokens) : Sound tokens (MonadExcept.throw e : Build α) where
  isOf := by
    rintro _ _ _ ⟨⟩
    exact h

theorem ofExcept {x : Except Error α} (h : ∀ e, x = .error e → e.IsOf tokens) : (Build.ofExcept x).Sound tokens where
  isOf hx := h _ (congrArg Prod.fst hx)

/-- An action that does not fail. -/
theorem of_ok {x : Build α} (h : ∀ names, ∃ a names', x names = (.ok a, names')) : x.Sound tokens where
  isOf := by
    intro names names' e hx
    obtain ⟨a, between, ha⟩ := h names
    cases ha.symm.trans hx

/-- The second action may rely on what the first one results in. -/
theorem bind_of_ok {x : Build α} {f : α → Build β} (hx : x.Sound tokens)
    (hf : ∀ a, (∃ names names', x names = (.ok a, names')) → (f a).Sound tokens) : (x >>= f).Sound tokens where
  isOf := by
    intro names names' e h
    change (match x names with
      | (a, names) => ExceptT.bindCont f a names) = _ at h
    cases hr : x names with
    | mk result between =>
      rw [hr] at h
      cases result with
      | ok a => exact (hf a ⟨names, between, hr⟩).isOf h
      | error e' =>
        cases h
        exact hx.isOf hr

theorem bind {x : Build α} {f : α → Build β} (hx : x.Sound tokens) (hf : ∀ a, (f a).Sound tokens) :
    (x >>= f).Sound tokens :=
  hx.bind_of_ok fun a _ => hf a

/-- An action on some of the tokens. -/
theorem mono {x : Build α} (h : x.Sound tokens) {tokens' : List Token} (hsub : tokens ⊆ tokens') :
    x.Sound tokens' where
  isOf hx :=
    { isOfText := (h.isOf hx).isOfText
      unrecognized := fun he => ((h.isOf hx).unrecognized he).imp fun _ ⟨ht, hrest⟩ => ⟨hsub ht, hrest⟩ }

end Build.Sound

section

variable {tokens : List Token}

namespace Limits

theorem checkNumber_error {limits : Limits} {literal : String} {value : Float} {e : Error}
    (h : limits.checkNumber literal value = .error e) : e.IsOf tokens := by
  unfold checkNumber at h
  split at h <;> cases h
  exact ⟨trivial, nofun⟩

theorem checkExponent_error {ceiling : Float} {v : Value} {e : Error} (h : checkExponent ceiling v = .error e) :
    e.IsOf tokens := by
  unfold checkExponent at h
  split at h
  · split at h <;> cases h
    exact ⟨trivial, nofun⟩
  · cases h

theorem checkFactorial_error {ceiling : Float} {v : Value} {e : Error} (h : checkFactorial ceiling v = .error e) :
    e.IsOf tokens := by
  unfold checkFactorial at h
  split at h
  · split at h <;> cases h
    exact ⟨trivial, nofun⟩
  · cases h

end Limits

namespace Expr

theorem checkedNumber_error {limits : Limits} {literal : String} {value : Number} {e : Error}
    (h : checkedNumber limits literal value = .error e) : e.IsOf tokens := by
  unfold checkedNumber at h
  cases hc : limits.checkNumber literal value.toFloat with
  | error e' =>
    rw [hc] at h
    cases h
    exact Limits.checkNumber_error hc
  | ok =>
    rw [hc] at h
    cases h

theorem checkedPower_error {base exponent : Expr} {ceiling : Float} {e : Error}
    (h : checkedPower base exponent ceiling = .error e) : e.IsOf tokens := by
  unfold checkedPower at h
  cases hv : exponent.evaluate with
  | error e' =>
    rw [hv] at h
    cases h
  | ok v =>
    rw [hv] at h
    dsimp only at h
    cases hc : Limits.checkExponent ceiling v with
    | error e' =>
      rw [hc] at h
      cases h
      exact Limits.checkExponent_error hc
    | ok =>
      rw [hc] at h
      cases h

theorem checkedFactorial_error {operand : Expr} {ceiling : Float} {e : Error}
    (h : checkedFactorial operand ceiling = .error e) : e.IsOf tokens := by
  unfold checkedFactorial at h
  cases hv : operand.evaluate with
  | error e' =>
    rw [hv] at h
    cases h
  | ok v =>
    rw [hv] at h
    dsimp only at h
    cases hc : Limits.checkFactorial ceiling v with
    | error e' =>
      rw [hc] at h
      cases h
      exact Limits.checkFactorial_error hc
    | ok =>
      rw [hc] at h
      cases h

end Expr

end

/-! ## Looking up a phrase -/

/-- The phrase is a right-hand side, and what was reduced to in it carries what it should. -/
structure Phrase.Stands (p : Phrase) (rhs : List Symbol) : Prop where
  symbols : p.tokens.map (·.symbol) = rhs
  filled : ∀ t ∈ p.tokens, t.Filled

namespace Phrase.Stands

variable {p : Phrase} {rhs : List Symbol} {i : Nat} {x : Symbol}

theorem exists_token (h : p.Stands rhs) (hx : rhs[i]? = some x) : ∃ t, p.tokens[i]? = some t ∧ t.symbol = x := by
  rw [← h.symbols, List.getElem?_map] at hx
  exact Option.map_eq_some_iff.mp hx

theorem token (h : p.Stands rhs) (hx : rhs[i]? = some x) : (p.token i).Sound p.tokens := by
  obtain ⟨t, ht, -⟩ := h.exists_token hx
  exact .of_ok fun names => ⟨t, names, Phrase.token_eq_ok.mpr ⟨ht, rfl⟩⟩

/-- The token that is looked up is one of the phrase, of the kind that the rule says. -/
theorem bind_token {α : Type} {f : Token → Build α} (h : p.Stands rhs) (hx : rhs[i]? = some x)
    (hf : ∀ t ∈ p.tokens, t.symbol = x → (f t).Sound p.tokens) : (p.token i >>= f).Sound p.tokens := by
  refine (h.token hx).bind_of_ok fun t ⟨names, names', ht⟩ => ?_
  obtain ⟨t', ht', hsymbol⟩ := h.exists_token hx
  obtain rfl := Option.some.inj (ht'.symm.trans (Phrase.token_eq_ok.mp ht).1)
  exact hf t' (List.mem_of_getElem? ht') hsymbol

theorem lexeme (h : p.Stands rhs) (hx : rhs[i]? = some x) : (p.lexeme i).Sound p.tokens :=
  (h.token hx).bind fun _ => .pure _

theorem expr (h : p.Stands rhs) (hx : rhs[i]? = some x) (hn : x.isTerminal = false ∧ x ≠ .arguments) :
    (p.expr i).Sound p.tokens := by
  obtain ⟨t, ht, rfl⟩ := h.exists_token hx
  have hfilled := h.filled t (List.mem_of_getElem? ht) hn.1
  rw [if_neg hn.2] at hfilled
  obtain ⟨e, he⟩ := hfilled
  exact .of_ok fun names => ⟨e, names, Phrase.expr_eq_ok.mpr ⟨⟨t, ht, he⟩, rfl⟩⟩

theorem args (h : p.Stands rhs) (hx : rhs[i]? = some .arguments) : (p.args i).Sound p.tokens := by
  obtain ⟨t, ht, hsymbol⟩ := h.exists_token hx
  have hfilled := h.filled t (List.mem_of_getElem? ht) (by rw [hsymbol]; rfl)
  rw [if_pos hsymbol] at hfilled
  obtain ⟨es, hes⟩ := hfilled
  exact .of_ok fun names => ⟨es, names, Phrase.args_eq_ok.mpr ⟨⟨t, ht, hes⟩, rfl⟩⟩

end Phrase.Stands

/-! ## Rules -/

namespace Setting

variable {s : Setting} {p : Phrase} {stop : Position} {tokens : List Token}

theorem sound_identifier (name : String) (subscript : Option String) : (s.identifier name subscript).Sound tokens :=
  .of_ok fun _ => ⟨_, _, rfl⟩

theorem sound_number {t : Token} (ht : t ∈ tokens) (hsymbol : t.symbol = .number) : (s.number t).Sound tokens := by
  unfold number
  cases hv : Number.ofLiteral? t.lexeme with
  | none =>
    refine .throw ⟨trivial, fun he => ?_⟩
    obtain ⟨rfl, -⟩ := Error.unrecognized.inj he
    exact ⟨t, ht, hsymbol, rfl, hv⟩
  | some v => exact .ofExcept fun _ => Expr.checkedNumber_error

theorem sound_leadingArgument {t : Token} (ht : t ∈ tokens) : (s.leadingArgument t).Sound tokens := by
  rw [leadingArgument_eq]
  split
  · rename_i hsymbol
    exact sound_number ht hsymbol
  · exact sound_identifier _ _

theorem sound_call (name : String) {subscript : Option Token} (hsub : subscript.toList ⊆ tokens)
    (args : List Expr) : (s.call name subscript args).Sound tokens := by
  unfold call
  cases s.catalog.function? name with
  | some f =>
    cases subscript with
    | none =>
      refine .bind (.pure args) fun args => ?_
      dsimp only
      cases f.checkArity args.length with
      | ok => exact .pure _
      | error => exact .throw ⟨trivial, nofun⟩
    | some t =>
      refine .bind (sound_leadingArgument (hsub List.mem_cons_self)) fun a => .bind (.pure (a :: args)) fun args => ?_
      dsimp only
      cases f.checkArity args.length with
      | ok => exact .pure _
      | error => exact .throw ⟨trivial, nofun⟩
  | none =>
    rcases args with _ | ⟨arg, _ | ⟨_, _⟩⟩
    · exact .throw ⟨trivial, nofun⟩
    · exact (sound_identifier _ _).bind fun _ => .pure _
    · exact .throw ⟨trivial, nofun⟩

theorem sound_nameOrFunction {rhs : List Symbol} {x : Symbol} (h : p.Stands rhs) (hx : rhs[0]? = some x) :
    (s.nameOrFunction p).Sound p.tokens := by
  obtain ⟨t, ht, -⟩ := h.exists_token hx
  rw [nameOrFunction_eq ht]
  split
  · cases s.catalog.function? t.lexeme with
    | none => exact sound_identifier _ _
    | some f => exact .pure _
  · exact sound_identifier _ _

/-- The action of a rule finds in its phrase what it looks up, so that it can only fail with errors of the text. -/
theorem sound_build {f : Rule.Form} (hf : f ∈ Rule.table) (h : p.Stands f.rhs) : (s.build p f.rule).Sound p.tokens := by
  have hform := Rule.form?_of_mem hf
  generalize f.rule = r at hform
  cases r <;> obtain rfl := Option.some.inj hform <;> unfold build
  case start | definitionStart | plain | bareInterval | groupExpression | unaryExpression | firstArgument |
      parentheses | brackets | braces | parenthesesBound | bracesBound | plusGroup | plusUnary | minusGroup |
      minusUnary | bars =>
    exact .bind (h.expr rfl (by decide)) fun _ => .pure _
  case equalTo | unequalTo | lessThan | greaterThan | atMost | atLeast | sum | difference | product | quotient |
      remainder | closedInterval | rightOpenInterval | leftOpenInterval | openInterval =>
    refine .bind ?_ fun _ => .pure _
    exact .bind (h.expr rfl (by decide)) fun _ => .bind (h.expr rfl (by decide)) fun _ => .pure _
  case juxtaposition =>
    exact .bind (h.expr rfl (by decide)) fun _ => .bind (h.expr rfl (by decide)) fun _ => .pure _
  case setInterval =>
    refine .bind (h.lexeme rfl) fun name => ?_
    cases NumberSet.ofName? name with
    | none => exact .throw ⟨trivial, nofun⟩
    | some set => exact .bind (h.expr rfl (by decide)) fun _ => .pure _
  case definition =>
    exact .bind (h.args rfl) fun _ => .bind (h.expr rfl (by decide)) fun _ => .bind (h.lexeme rfl) fun _ => .pure _
  case definitionWithoutParameters =>
    exact .bind (h.expr rfl (by decide)) fun _ => .bind (h.lexeme rfl) fun _ => .pure _
  case nextArgument =>
    exact .bind (h.args rfl) fun _ => .bind (h.expr rfl (by decide)) fun _ => .pure _
  case power =>
    refine .bind (h.expr rfl (by decide)) fun _ => .bind (h.expr rfl (by decide)) fun _ => ?_
    exact .bind (.ofExcept fun _ => Expr.checkedPower_error) fun _ => .pure _
  case factorial =>
    refine .bind (h.expr rfl (by decide)) fun _ => ?_
    exact .bind (.ofExcept fun _ => Expr.checkedFactorial_error) fun _ => .pure _
  case number | numberBound =>
    exact h.bind_token rfl fun t ht hsymbol => .bind (sound_number ht hsymbol) fun _ => .pure _
  case identifier => exact .bind (sound_nameOrFunction h rfl) fun _ => .pure _
  case identifierBound => exact .bind (h.lexeme rfl) fun _ => .bind (sound_identifier _ _) fun _ => .pure _
  case numberSubscript | nameSubscript =>
    exact .bind (h.lexeme rfl) fun _ => .bind (h.lexeme rfl) fun _ => .bind (sound_identifier _ _) fun _ => .pure _
  case call =>
    refine .bind (h.args rfl) fun _ => .bind (h.lexeme rfl) fun _ => ?_
    exact .bind (sound_call _ (List.nil_subset _) _) fun _ => .pure _
  case callWithoutArguments =>
    exact .bind (h.lexeme rfl) fun _ => .bind (sound_call _ (List.nil_subset _) _) fun _ => .pure _
  case numberSubscriptCall | nameSubscriptCall =>
    refine .bind (h.args rfl) fun _ => .bind (h.lexeme rfl) fun _ => h.bind_token rfl fun t ht _ => ?_
    exact .bind (sound_call _ (List.cons_subset.mpr ⟨ht, List.nil_subset _⟩) _) fun _ => .pure _
  case composition =>
    refine .bind (h.lexeme rfl) fun name => ?_
    cases s.catalog.function? name with
    | none => exact .throw ⟨trivial, nofun⟩
    | some f => exact .bind (h.expr rfl (by decide)) fun _ => .pure _
  case limit =>
    refine .bind (h.lexeme rfl) fun _ => .bind (h.expr rfl (by decide)) fun _ => ?_
    exact .bind (h.expr rfl (by decide)) fun _ => .pure _
  case bigSum | bigProduct =>
    refine .bind (.bind (h.lexeme rfl) fun _ => .bind (h.expr rfl (by decide)) fun _ => ?_) fun _ => .pure _
    exact .bind (h.expr rfl (by decide)) fun _ => .bind (h.expr rfl (by decide)) fun _ => .pure _

/-! ## Stacks -/

/-- What a rule makes are arguments for the rules that gather them, and a tree for all others. -/
theorem Makes.payload_eq {r : Rule} {payload : Payload} (h : s.Makes p r payload) :
    if r = .firstArgument ∨ r = .nextArgument then ∃ es, payload = .args es else ∃ e, payload = .expr e := by
  cases h with
  | firstArgument | nextArgument => exact ⟨_, rfl⟩
  | definition | definitionWithoutParameters | setInterval | power | factorial | bars | function | call |
      callWithoutArguments | composition | limit => exact ⟨_, rfl⟩
  | pos hr | neg hr | number hr | identifier hr | subscript hr | subscriptCall hr =>
    rcases hr with rfl | rfl <;> exact ⟨_, rfl⟩
  | hand hr | relation hr | interval hr | operation hr | big hr =>
    rw [if_neg]
    · exact ⟨_, rfl⟩
    · rintro (rfl | rfl) <;> revert hr <;>
        simp [Rule.handing, Rule.relations, Rule.intervals, Rule.operations, Rule.bigOperators]

/-- A token that was reduced to carries what its symbol says. -/
theorem filled_of_makes {f : Rule.Form} (hf : f ∈ Rule.table) {payload : Payload} (h : s.Makes p f.rule payload)
    (span : Span) : Token.Filled ⟨f.lhs, "", span, payload⟩ := by
  intro _
  have htable : ∀ f ∈ Rule.table, f.lhs = .arguments ↔ f.rule = .firstArgument ∨ f.rule = .nextArgument := by decide
  have hp := h.payload_eq
  simp only [htable f hf]
  exact hp

/-- What was reduced to stays filled on the stack. -/
theorem filled_of_moves {n : Nat} {c d : Config Token (List String)}
    (h : LR.Moves Rule.grammar (s.semantics stop) n c d) (hc : ∀ t ∈ c.stack, t.Filled) : ∀ t ∈ d.stack, t.Filled := by
  refine h.preserve (P := fun c => ∀ t ∈ c.stack, t.Filled) (fun c c' hc hm t ht => ?_) hc
  cases hm with
  | shift _ hterminal hc' =>
    rw [hc', Config.shift_stack] at ht
    rcases List.mem_cons.mp ht with rfl | ht
    · intro hn
      rw [Symbol.isTerminal, decide_eq_false_iff_not] at hn
      exact absurd hterminal hn
    · exact hc t ht
  | @reduce _ _ _ _ phrase below _ _ _ _ _ _ _ hp hstack hphrase _ _ _ hreduce _ _ hc' =>
    rw [hc'] at ht
    rw [hstack] at hc hreduce
    rcases List.mem_cons.mp ht with rfl | ht
    · obtain ⟨f, hf, -, -, -, payload, hm, rfl⟩ := makes_of_reduce hp hphrase hreduce
      exact filled_of_makes hf hm _
    · exact hc t (List.mem_append_right _ ht)

/-- A reduction of a phrase that stands on the stack can only fail with errors of the text. -/
theorem sound_reduce {number : Nat} {f : Rule.Form} (hf : Rule.form? number = some f) {stack : List Token}
    (h : (stack.take f.rhs.length).map (·.symbol) = f.rhs.reverse) (hfilled : ∀ t ∈ stack, t.Filled) (atEnd : Span) :
    (s.reduce atEnd number stack).Sound stack := by
  have hlength := congrArg List.length h
  rw [List.length_map, List.length_take, List.length_reverse] at hlength
  unfold reduce
  rw [hf]
  dsimp only
  rw [if_neg (by omega)]
  have hphrase : (stack.take f.rhs.length).reverse ⊆ stack := fun t ht => List.mem_of_mem_take (List.mem_reverse.mp ht)
  refine .bind ((sound_build (List.mem_of_getElem? hf) ⟨?_, fun t ht => hfilled t (hphrase ht)⟩).mono hphrase)
    fun _ => .pure _
  rw [List.map_reverse, h, List.reverse_reverse]

/-! ## Runs -/

section

variable {goal : Goal} {tokens : List Token} {names : List String} {n : Nat} {d : Config Token (List String)}

/-- What a run comes to. -/
theorem reads_of_leads (hl : Leads Rule.tables (s.semantics stop) n
    (Config.start (s.semantics stop) goal.index tokens names) d) :
    (∀ t ∈ d.stack, t.Filled) ∧ ∃ numbers read,
      LR.Reads Rule.grammar (s.semantics stop) tokens goal.index numbers read d ∧ numbers.length + read.length = n := by
  obtain ⟨hmoves, hreads⟩ := moves_of_leads hl
  refine ⟨filled_of_moves hmoves fun t ht => ?_, hreads⟩
  rw [Config.start_stack] at ht
  cases ht

/-- Every token of the input is good for one shift and no more than four reductions. -/
theorem fuel_lasts (hl : Leads Rule.tables (s.semantics stop) n
    (Config.start (s.semantics stop) goal.index tokens names) d) : n ≤ 5 * tokens.length :=
  hl.le_of_weights Rule.augmented.checked (s.lawful stop) Rule.finish_not_mem (fun t _ => t.symbol.index_lt)
    Rule.weightAt_lt Symbol.weightAt_le

/-- A run ends in a turn that does not use up its fuel, and so it ends in the same way with more of it. -/
theorem exists_stop (s : Setting) (goal : Goal) (tokens : List Token) (names : List String) :
    ∃ n ≤ 5 * tokens.length, ∃ d, Leads Rule.tables (s.semantics (stopOf tokens)) n
        (Config.start (s.semantics (stopOf tokens)) goal.index tokens names) d ∧
      ∃ o, d.step Rule.tables (s.semantics (stopOf tokens)) = .stop o ∧ ∀ fuel > 5 * tokens.length,
        LR.run Rule.tables (s.semantics (stopOf tokens)) fuel goal.index tokens names = o := by
  obtain ⟨n, hn, d, o, hd, hstop, ho⟩ := LR.exists_last (c := Config.start (s.semantics (stopOf tokens)) goal.index
    tokens names) fun _ _ => fuel_lasts
  refine ⟨n, hn, d, hd, o, hstop, fun fuel hfuel => ?_⟩
  exact (LR.run_eq (goal_lt goal) fuel names).trans (ho fuel (Nat.lt_of_le_of_lt hn hfuel))

/-- The numbers on the stack are tokens of the input. -/
theorem mem_of_leads (hl : Leads Rule.tables (s.semantics stop) n
    (Config.start (s.semantics stop) goal.index tokens names) d) :
    ∀ t ∈ d.stack, t.symbol = .number → t ∈ tokens := by
  have hnumber : ∀ f ∈ Rule.table, f.lhs ≠ .number := by decide
  have hands : (s.semantics stop).HandsOn Rule.grammar fun t => t.symbol = .number → t ∈ tokens := by
    intro _ _ _ token _ _ _ _ hp hphrase _ h hn
    obtain ⟨f, hf, -, -, -, payload, -, rfl⟩ := makes_of_reduce hp hphrase h
    exact absurd hn (hnumber f hf)
  have hend : (s.semantics stop).endToken.symbol = .number → (s.semantics stop).endToken ∈ tokens := nofun
  obtain ⟨hmoves, -⟩ := moves_of_leads hl
  have hd := hmoves.preserve (fun _ _ hc hm => hm.forall_tokens hands hend hc)
    (Config.forall_start (P := fun t => t.symbol = .number → t ∈ tokens) hend (fun t ht _ => ht) goal.index names)
  exact fun t ht => hd t (List.mem_append_left _ ht)

theorem isOf_unexpected (tokens : List Token) (t : Token) : (unexpected t).IsOf tokens := by
  unfold unexpected
  split
  · refine ⟨trivial, fun h => ?_⟩
    cases h
  · refine ⟨trivial, fun h => ?_⟩
    cases h

/-- A run that fails says what is wrong with the text. -/
theorem run_isOf {e : Error} (h : (s.run goal tokens names).result = .error e) : e.IsOf tokens := by
  obtain ⟨n, hn, d, hd, o, hstop, ho⟩ := exists_stop s goal tokens names
  obtain ⟨hfilled, numbers, read, hreads, -⟩ := reads_of_leads hd
  rw [run, ho _ (by omega)] at h
  have hgoal := List.getElem?_eq_getElem (goal_lt goal)
  have hends := hreads.ends Rule.augmented (s.lawful _) (List.getElem_mem (goal_lt goal))
    (Rule.grammar.states_goal Rule.augmented hgoal) d.next.symbol.index_lt hstop
  rw [h] at hends
  cases hends with
  | refuse =>
    exact isOf_unexpected tokens d.next
  | choose _ hc => cases hc
  | reduce _ hp hphrase hreduce =>
    obtain ⟨f, hf, rfl⟩ := Rule.exists_form hp
    have hstack : e.IsOf d.stack := by
      refine (sound_reduce hf (Symbol.map_index_injective ?_) hfilled _).isOf hreduce
      rw [List.length_map] at hphrase
      rw [List.map_map, List.map_reverse]
      exact hphrase
    refine ⟨hstack.isOfText, fun he => ?_⟩
    obtain ⟨t, ht, hnumber, hrest⟩ := hstack.unrecognized he
    exact ⟨t, mem_of_leads hd t ht hnumber, hnumber, hrest⟩

theorem run_error {e : Error} (h : (s.run goal tokens names).result = .error e) : e.IsOfText :=
  (run_isOf h).isOfText

/-- A run that succeeds returns a tree. -/
theorem run_ok {token : Token} (h : (s.run goal tokens names).result = .ok token) : ∃ e, token.payload = .expr e := by
  obtain ⟨n, d, -, hmoves, hstack, -, -, hsymbol⟩ := exists_moves h
  have hfilled := (reads_of_leads hmoves.leads).1 token (by rw [hstack]; exact List.mem_singleton_self _)
  have hgoal : goal.symbol.isTerminal = false ∧ goal.symbol ≠ .arguments := by cases goal <;> decide
  rw [← hsymbol] at hgoal
  have := hfilled hgoal.1
  rwa [if_neg hgoal.2] at this

end

/-- The parser of the notation meets no fault. Its grammar passes the checks, and whatever tokens are read, with
whatever names and limits, for either goal: a run comes to an end before its fuel is used up, so that more of it would
change nothing; it returns a tree, or an error that says what is wrong with the text; and when it reduces by a rule,
the right-hand side of the rule is on top of the stack, with a tree or a list of arguments below each symbol that was
reduced to. -/
theorem parseTokens_faultless (s : Setting) (goal : Goal) (tokens : List Token) (names : List String) :
    let fuel := 8 * (tokens.length + 2)
    let turns := LR.historyOf Rule.tables (s.semantics (stopOf tokens)) fuel goal.index tokens names
    Rule.grammar.build = .ok Rule.grammar ∧
    (∀ more ≥ fuel, LR.run Rule.tables (s.semantics (stopOf tokens)) more goal.index tokens names =
      s.run goal tokens names) ∧
    (∀ e, (s.parseTokens goal tokens names).result = .error e → e.IsOfText) ∧
    ∀ c ∈ turns, ∀ number, c.decision Rule.tables (s.semantics (stopOf tokens)) = .reduce number →
      ∃ (f : Rule.Form) (phrase below : List Token), Rule.form? number = some f ∧
        c.stack = phrase.reverse ++ below ∧ phrase.map (·.symbol) = f.rhs ∧ ∀ t ∈ phrase, t.Filled := by
  intro fuel turns
  refine ⟨Rule.grammar_build, fun more hmore => ?_, fun e he => ?_, fun c hc number hd => ?_⟩
  · obtain ⟨-, -, -, -, o, -, ho⟩ := exists_stop s goal tokens names
    rw [run, ho more (by omega), ho _ (by omega)]
  · change (do return (← exprOf (← (s.run goal tokens names).result)).classify) = _ at he
    cases hrun : (s.run goal tokens names).result with
    | error e' =>
      rw [hrun] at he
      cases he
      exact run_error hrun
    | ok token =>
      obtain ⟨a, ha⟩ := run_ok hrun
      rw [hrun] at he
      change (do return (← exprOf token).classify) = _ at he
      rw [exprOf, ha] at he
      cases he
  · rw [show turns = _ from LR.historyOf_eq (goal_lt goal) fuel names] at hc
    obtain ⟨n, -, hl⟩ := LR.exists_leads_of_mem_history hc
    obtain ⟨hfilled, numbers, read, hreads, -⟩ := reads_of_leads hl
    have hgoal := Rule.grammar.states_goal Rule.augmented (List.getElem?_eq_getElem (goal_lt goal))
    obtain ⟨r, -, hr, -⟩ := Rule.grammar.exists_goal Rule.augmented (List.getElem_mem (goal_lt goal))
    obtain ⟨q, hq⟩ := hreads.stacked.exists_top hgoal
    have hsanctioned := LR.sanctioned_decision (s.lawful (stopOf tokens)) hq c.next.symbol.index_lt
    rw [show LR.Tables.build Rule.grammar = Rule.tables from rfl, hd] at hsanctioned
    cases hsanctioned with
    | reduce hp hi =>
      obtain ⟨f, hf, rfl⟩ := Rule.exists_form hp
      obtain ⟨-, hphrase⟩ := hreads.phrase Rule.augmented hgoal hr hq hp hi
      rw [List.length_map, ← List.map_take] at hphrase
      refine ⟨f, (c.stack.take f.rhs.length).reverse, c.stack.drop f.rhs.length, hf, ?_, ?_, fun t ht => hfilled t ?_⟩
      · rw [List.reverse_reverse, List.take_append_drop]
      · refine Symbol.map_index_injective ?_
        rw [List.map_map, List.map_reverse]
        exact (congrArg List.reverse hphrase).trans (List.reverse_reverse _)
      · exact List.mem_of_mem_take (List.mem_reverse.mp ht)

end Setting

end Formula
