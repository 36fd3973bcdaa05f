import Formula.Proofs.Expr.Build

/-!
# What rules make

`Makes` says, rule by rule, which tree or which arguments a rule makes of a phrase. It is what `build` does, read as a
relation: everything that is built is made (`Makes.of_build`), and everything that can be made is built, whatever
variables were met before (`Makes.builds`). What a run does to trees is shown by cases on this relation, with no look
at `build` itself.
-/

namespace Formula

namespace Rule

/-- The rules that hand on the tree at a place of their phrase. -/
def handing : List (Rule × Nat) :=
  [(.start, 0), (.definitionStart, 0), (.plain, 0), (.bareInterval, 0), (.groupExpression, 0), (.unaryExpression, 0),
    (.parentheses, 1), (.brackets, 1), (.braces, 1), (.parenthesesBound, 1), (.bracesBound, 1)]

/-- The rules of relations, with the place of the right side. -/
def relations : List (Rule × Relation × Nat) :=
  [(.equalTo, .eq, 2), (.unequalTo, .ne, 2), (.lessThan, .lt, 2), (.greaterThan, .gt, 2), (.atMost, .le, 3),
    (.atLeast, .ge, 3)]

/-- The rules of intervals, with the two brackets. -/
def intervals : List (Rule × Char × Char) :=
  [(.closedInterval, '[', ']'), (.rightOpenInterval, '[', ')'), (.leftOpenInterval, '(', ']'), (.openInterval, '(', ')')]

/-- The rules of operations, with the place of the right operand. -/
def operations : List (Rule × Operator × Nat) :=
  [(.sum, .add, 2), (.difference, .sub, 2), (.product, .mul, 2), (.quotient, .div, 2), (.remainder, .mod, 2),
    (.juxtaposition, .mul, 1)]

/-- The rules of big operators. -/
def bigOperators : List (Rule × BigOperator) := [(.bigSum, .sum), (.bigProduct, .product)]

end Rule

namespace Setting

variable {s : Setting} {p : Phrase} {names names' : List String}

/-- The token is the literal of a number that the limits allow. -/
def Literal (s : Setting) (t : Token) (e : Expr) : Prop :=
  ∃ v, Number.ofLiteral? t.lexeme = some v ∧ s.limits.checkNumber t.lexeme v.toFloat = .ok () ∧
    e = .number t.lexeme v

theorem number_eq_ok {t : Token} {e : Expr} :
    s.number t names = (.ok e, names') ↔ s.Literal t e ∧ names = names' := by
  unfold number Literal
  cases Number.ofLiteral? t.lexeme with
  | none => simp [Build.throw_eq_ok]
  | some v => simp [Build.ofExcept_eq_ok, Expr.checkedNumber_eq_ok]

/-- What the subscript of a function adds in front of its arguments. -/
inductive Leading (s : Setting) : Option Token → List Expr → Prop where
  | none : Leading s none []
  | number {t : Token} {e : Expr} (ht : t.symbol = .number) (he : s.Literal t e) : Leading s (some t) [e]
  | name {t : Token} (ht : t.symbol ≠ .number) : Leading s (some t) [s.resolve t.lexeme .none]

/-- What a name with arguments behind it stands for. -/
inductive Calls (s : Setting) (name : String) (subscript : Option Token) (args : List Expr) : Expr → Prop where
  | function {f : Function} {lead : List Expr} (hf : s.catalog.function? name = some f)
      (hl : s.Leading subscript lead) (ha : f.accepts (lead ++ args).length = true) :
      Calls s name subscript args (.call f (lead ++ args))
  | product {arg : Expr} (hf : s.catalog.function? name = none) (ha : args = [arg]) :
      Calls s name subscript args (.binary .mul (s.resolve name (subscript.map (·.lexeme))) arg)

/-- What a rule makes of a phrase. -/
inductive Makes (s : Setting) (p : Phrase) : Rule → Payload → Prop where
  | hand {r : Rule} {i : Nat} {e : Expr} (hr : (r, i) ∈ Rule.handing) (he : p.Tree i e) : Makes s p r (.expr e)
  | relation {r : Rule} {op : Relation} {i : Nat} {a b : Expr} (hr : (r, op, i) ∈ Rule.relations) (ha : p.Tree 0 a)
      (hb : p.Tree i b) : Makes s p r (.expr (.relation op a b))
  | interval {r : Rule} {left right : Char} {a b : Expr} (hr : (r, left, right) ∈ Rule.intervals) (ha : p.Tree 1 a)
      (hb : p.Tree 3 b) : Makes s p r (.expr (.interval left a b right))
  | setInterval {name : String} {set : NumberSet} {e : Expr} (hn : p.Text 0 name)
      (hs : NumberSet.ofName? name = some set) (he : p.Tree 2 e) : Makes s p .setInterval (.expr (.setInterval set e))
  | definition {name : String} {params : List Expr} {body : Expr} (hn : p.Text 0 name) (hp : p.Trees 2 params)
      (hb : p.Tree 5 body) : Makes s p .definition (.expr (.definition name params body))
  | definitionWithoutParameters {name : String} {body : Expr} (hn : p.Text 0 name) (hb : p.Tree 4 body) :
      Makes s p .definitionWithoutParameters (.expr (.definition name [] body))
  | firstArgument {e : Expr} (he : p.Tree 0 e) : Makes s p .firstArgument (.args [e])
  | nextArgument {es : List Expr} {e : Expr} (hs : p.Trees 0 es) (he : p.Tree 2 e) :
      Makes s p .nextArgument (.args (es ++ [e]))
  | operation {r : Rule} {op : Operator} {i : Nat} {a b : Expr} (hr : (r, op, i) ∈ Rule.operations) (ha : p.Tree 0 a)
      (hb : p.Tree i b) : Makes s p r (.expr (.binary op a b))
  | pos {r : Rule} {e : Expr} (hr : r = .plusGroup ∨ r = .plusUnary) (he : p.Tree 1 e) : Makes s p r (.expr (.pos e))
  | neg {r : Rule} {e : Expr} (hr : r = .minusGroup ∨ r = .minusUnary) (he : p.Tree 1 e) :
      Makes s p r (.expr (.neg e))
  | power {a b : Expr} (ha : p.Tree 0 a) (hb : p.Tree 2 b)
      (hc : ∀ v, b.evaluate = .ok v → Limits.checkExponent s.limits.exponent v = .ok ()) :
      Makes s p .power (.expr (.power a b s.limits.exponent))
  | factorial {a : Expr} (ha : p.Tree 0 a)
      (hc : ∀ v, a.evaluate = .ok v → Limits.checkFactorial s.limits.factorial v = .ok ()) :
      Makes s p .factorial (.expr (.factorial a s.limits.factorial))
  | number {r : Rule} {t : Token} {e : Expr} (hr : r = .number ∨ r = .numberBound) (ht : p.tokens[0]? = some t)
      (he : s.Literal t e) : Makes s p r (.expr e)
  | bars {e : Expr} (he : p.Tree 1 e) : Makes s p .bars (.expr (.absolute e))
  /-- Directly behind `@` the name of a function is the function. -/
  | function {name : String} {f : Function} (hn : p.Text 0 name) (hb : p.below = some .compose)
      (hf : s.catalog.function? name = some f) : Makes s p .identifier (.expr (.function f))
  | identifier {r : Rule} {name : String} (hr : r = .identifier ∨ r = .identifierBound)
      (hb : r = .identifier → p.below = some .compose → s.catalog.function? name = none) (hn : p.Text 0 name) :
      Makes s p r (.expr (s.resolve name none))
  | subscript {r : Rule} {name sub : String} (hr : r = .numberSubscript ∨ r = .nameSubscript) (hn : p.Text 0 name)
      (hs : p.Text 2 sub) : Makes s p r (.expr (s.resolve name (some sub)))
  | call {name : String} {args : List Expr} {e : Expr} (hn : p.Text 0 name) (ha : p.Trees 2 args)
      (he : s.Calls name none args e) : Makes s p .call (.expr e)
  | callWithoutArguments {name : String} {e : Expr} (hn : p.Text 0 name) (he : s.Calls name none [] e) :
      Makes s p .callWithoutArguments (.expr e)
  | subscriptCall {r : Rule} {name : String} {sub : Token} {args : List Expr} {e : Expr}
      (hr : r = .numberSubscriptCall ∨ r = .nameSubscriptCall) (hn : p.Text 0 name) (hs : p.tokens[2]? = some sub)
      (ha : p.Trees 4 args) (he : s.Calls name (some sub) args e) : Makes s p r (.expr e)
  | composition {name : String} {f : Function} {e : Expr} (hn : p.Text 0 name)
      (hf : s.catalog.function? name = some f) (he : p.Tree 2 e) :
      Makes s p .composition (.expr (.compose (.function f) e))
  | limit {target : String} {a b : Expr} (ht : p.Text 3 target) (ha : p.Tree 5 a) (hb : p.Tree 7 b) :
      Makes s p .limit (.expr (.limit target a b))
  | big {r : Rule} {op : BigOperator} {var : String} {a b c : Expr} (hr : (r, op) ∈ Rule.bigOperators)
      (hv : p.Text 3 var) (ha : p.Tree 5 a) (hb : p.Tree 8 b) (hc : p.Tree 9 c) :
      Makes s p r (.expr (.big op var a b c))

theorem identifier_eq_ok {name : String} {subscript : Option String} {e : Expr}
    (h : s.identifier name subscript names = (.ok e, names')) : e = s.resolve name subscript := by
  cases h
  rfl

theorem leadingArgument_eq (t : Token) :
    s.leadingArgument t = if t.symbol = .number then s.number t else s.identifier t.lexeme none := by
  unfold leadingArgument
  split <;> simp_all

/-- Reading a subscript as an argument. -/
theorem leadingArgument_eq_ok {t : Token} {e : Expr} (h : s.leadingArgument t names = (.ok e, names')) :
    s.Leading (some t) [e] := by
  rw [leadingArgument_eq] at h
  split at h
  · exact .number ‹_› (number_eq_ok.mp h).1
  · obtain rfl := identifier_eq_ok h
    exact .name ‹_›

/-- A call of a function succeeds when the number of its arguments fits. -/
theorem checkArity_eq_ok {f : Function} {args : List Expr} {e : Expr}
    (h : (match f.checkArity args.length with
      | .ok () => (pure (.call f args) : Build Expr)
      | .error mismatch => throw (Error.arityMismatch mismatch)) names = (.ok e, names')) :
    f.accepts args.length = true ∧ e = .call f args := by
  rw [Callable.checkArity] at h
  cases ha : f.accepts args.length with
  | false =>
    rw [ha] at h
    cases h
  | true =>
    rw [ha] at h
    exact ⟨rfl, (Build.pure_eq_ok.mp h).1.symm⟩

theorem Calls.of_call {name : String} {subscript : Option Token} {args : List Expr} {e : Expr}
    (h : s.call name subscript args names = (.ok e, names')) : s.Calls name subscript args e := by
  unfold call at h
  cases hf : s.catalog.function? name with
  | some f =>
    rw [hf] at h
    cases subscript with
    | none =>
      obtain ⟨args', _, hargs, h⟩ := Build.bind_eq_ok.mp h
      obtain ⟨rfl, -⟩ := Build.pure_eq_ok.mp hargs
      obtain ⟨ha, rfl⟩ := checkArity_eq_ok h
      exact .function hf .none ha
    | some t =>
      obtain ⟨lead, _, hlead, h⟩ := Build.bind_eq_ok.mp h
      obtain ⟨args', _, hargs, h⟩ := Build.bind_eq_ok.mp h
      obtain ⟨rfl, -⟩ := Build.pure_eq_ok.mp hargs
      obtain ⟨ha, rfl⟩ := checkArity_eq_ok h
      exact .function hf (leadingArgument_eq_ok hlead) ha
  | none =>
    rw [hf] at h
    match args, h with
    | [], h => cases h
    | [arg], h =>
      obtain ⟨factor, _, hfactor, h⟩ := Build.bind_eq_ok.mp h
      obtain ⟨rfl, -⟩ := Build.pure_eq_ok.mp h
      obtain rfl := identifier_eq_ok hfactor
      exact .product hf rfl
    | _ :: _ :: _, h => cases h

theorem nameOrFunction_eq {t : Token} (ht : p.tokens[0]? = some t) :
    s.nameOrFunction p =
      if p.below = some .compose then
        (s.catalog.function? t.lexeme).elim (s.identifier t.lexeme none) fun f => pure (.function f)
      else s.identifier t.lexeme none := by
  unfold nameOrFunction
  rw [Phrase.lexeme_eq ht, pure_bind]
  split
  · rename_i hb hf
    rw [if_pos hb, hf]
    rfl
  · rename_i hne
    split
    · rename_i hb
      cases hf : s.catalog.function? t.lexeme with
      | none => rfl
      | some f => exact absurd hf (hne f hb)
    · rfl

/-- The name of a function directly behind the sign of composition is the function, every other name a variable or
the product of its letters. -/
theorem Makes.of_nameOrFunction {e : Expr} (h : s.nameOrFunction p names = (.ok e, names')) :
    s.Makes p .identifier (.expr e) := by
  obtain ⟨name, _, hname, -⟩ := Build.bind_eq_ok.mp h
  obtain ⟨⟨t, ht, rfl⟩, -⟩ := Phrase.lexeme_eq_ok.mp hname
  have hname : p.Text 0 t.lexeme := ⟨t, ht, rfl⟩
  rw [nameOrFunction_eq ht] at h
  split at h
  · rename_i hb
    cases hf : s.catalog.function? t.lexeme with
    | some f =>
      rw [hf] at h
      obtain ⟨rfl, -⟩ := Build.pure_eq_ok.mp h
      exact .function hname hb hf
    | none =>
      rw [hf] at h
      obtain rfl := identifier_eq_ok h
      exact .identifier (.inl rfl) (fun _ _ => hf) hname
  · rename_i hb
    obtain rfl := identifier_eq_ok h
    exact .identifier (.inl rfl) (fun _ hc => absurd hc hb) hname

/-- What is built is what the rule makes. -/
theorem Makes.of_build {r : Rule} {payload : Payload} (h : s.build p r names = (.ok payload, names')) :
    s.Makes p r payload := by
  cases r <;> simp only [build, relationOf, binaryOf, intervalOf, bigOf, Build.bind_eq_ok, Build.pure_eq_ok,
    Build.ofExcept_eq_ok, Phrase.expr_eq_ok, Phrase.args_eq_ok, Phrase.lexeme_eq_ok, Phrase.token_eq_ok,
    number_eq_ok, Expr.checkedPower_eq_ok, Expr.checkedFactorial_eq_ok] at h
  case start | definitionStart | plain | bareInterval | groupExpression | unaryExpression | parentheses | brackets |
      braces | parenthesesBound | bracesBound =>
    obtain ⟨e, _, ⟨he, -⟩, rfl, -⟩ := h
    exact .hand (by decide) he
  case equalTo | unequalTo | lessThan | greaterThan | atMost | atLeast =>
    obtain ⟨_, _, ⟨a, _, ⟨ha, rfl⟩, b, _, ⟨hb, rfl⟩, rfl, rfl⟩, rfl, -⟩ := h
    exact .relation (by decide) ha hb
  case sum | difference | product | quotient | remainder =>
    obtain ⟨_, _, ⟨a, _, ⟨ha, rfl⟩, b, _, ⟨hb, rfl⟩, rfl, rfl⟩, rfl, -⟩ := h
    exact .operation (by decide) ha hb
  case juxtaposition =>
    obtain ⟨a, _, ⟨ha, rfl⟩, b, _, ⟨hb, rfl⟩, rfl, -⟩ := h
    exact .operation (by decide) ha hb
  case closedInterval | rightOpenInterval | leftOpenInterval | openInterval =>
    obtain ⟨_, _, ⟨a, _, ⟨ha, rfl⟩, b, _, ⟨hb, rfl⟩, rfl, rfl⟩, rfl, -⟩ := h
    exact .interval (by decide) ha hb
  case setInterval =>
    obtain ⟨name, _, ⟨hn, rfl⟩, h⟩ := h
    cases hs : NumberSet.ofName? name with
    | none =>
      rw [hs] at h
      cases h
    | some set =>
      rw [hs] at h
      obtain ⟨e, _, he, h⟩ := Build.bind_eq_ok.mp h
      obtain ⟨rfl, -⟩ := Build.pure_eq_ok.mp h
      exact .setInterval hn hs (Phrase.expr_eq_ok.mp he).1
  case definition =>
    obtain ⟨params, _, ⟨hp, rfl⟩, body, _, ⟨hb, rfl⟩, name, _, ⟨hn, rfl⟩, rfl, -⟩ := h
    exact .definition hn hp hb
  case definitionWithoutParameters =>
    obtain ⟨body, _, ⟨hb, rfl⟩, name, _, ⟨hn, rfl⟩, rfl, -⟩ := h
    exact .definitionWithoutParameters hn hb
  case firstArgument =>
    obtain ⟨e, _, ⟨he, rfl⟩, rfl, -⟩ := h
    exact .firstArgument he
  case nextArgument =>
    obtain ⟨es, _, ⟨hs, rfl⟩, e, _, ⟨he, rfl⟩, rfl, -⟩ := h
    exact .nextArgument hs he
  case plusGroup | plusUnary =>
    obtain ⟨e, _, ⟨he, rfl⟩, rfl, -⟩ := h
    exact .pos (by decide) he
  case minusGroup | minusUnary =>
    obtain ⟨e, _, ⟨he, rfl⟩, rfl, -⟩ := h
    exact .neg (by decide) he
  case power =>
    obtain ⟨a, _, ⟨ha, rfl⟩, b, _, ⟨hb, rfl⟩, _, _, ⟨⟨hc, rfl⟩, rfl⟩, rfl, -⟩ := h
    exact .power ha hb hc
  case factorial =>
    obtain ⟨a, _, ⟨ha, rfl⟩, _, _, ⟨⟨hc, rfl⟩, rfl⟩, rfl, -⟩ := h
    exact .factorial ha hc
  case number | numberBound =>
    obtain ⟨t, _, ⟨ht, rfl⟩, e, _, ⟨he, rfl⟩, rfl, -⟩ := h
    exact .number (by decide) ht he
  case bars =>
    obtain ⟨e, _, ⟨he, rfl⟩, rfl, -⟩ := h
    exact .bars he
  case identifier =>
    obtain ⟨e, _, he, rfl, -⟩ := h
    exact .of_nameOrFunction he
  case identifierBound =>
    obtain ⟨name, _, ⟨hn, rfl⟩, e, _, he, rfl, -⟩ := h
    obtain rfl := identifier_eq_ok he
    exact .identifier (.inr rfl) (fun hr => nomatch hr) hn
  case numberSubscript | nameSubscript =>
    obtain ⟨name, _, ⟨hn, rfl⟩, sub, _, ⟨hs, rfl⟩, e, _, he, rfl, -⟩ := h
    obtain rfl := identifier_eq_ok he
    exact .subscript (by decide) hn hs
  case call =>
    obtain ⟨args, _, ⟨ha, rfl⟩, name, _, ⟨hn, rfl⟩, e, _, he, rfl, -⟩ := h
    exact .call hn ha (.of_call he)
  case callWithoutArguments =>
    obtain ⟨name, _, ⟨hn, rfl⟩, e, _, he, rfl, -⟩ := h
    exact .callWithoutArguments hn (.of_call he)
  case numberSubscriptCall | nameSubscriptCall =>
    obtain ⟨args, _, ⟨ha, rfl⟩, name, _, ⟨hn, rfl⟩, sub, _, ⟨hs, rfl⟩, e, _, he, rfl, -⟩ := h
    exact .subscriptCall (by decide) hn hs ha (.of_call he)
  case composition =>
    obtain ⟨name, _, ⟨hn, rfl⟩, h⟩ := h
    cases hf : s.catalog.function? name with
    | none =>
      rw [hf] at h
      cases h
    | some f =>
      rw [hf] at h
      obtain ⟨e, _, he, h⟩ := Build.bind_eq_ok.mp h
      obtain ⟨rfl, -⟩ := Build.pure_eq_ok.mp h
      exact .composition hn hf (Phrase.expr_eq_ok.mp he).1
  case limit =>
    obtain ⟨target, _, ⟨ht, rfl⟩, a, _, ⟨ha, rfl⟩, b, _, ⟨hb, rfl⟩, rfl, -⟩ := h
    exact .limit ht ha hb
  case bigSum | bigProduct =>
    obtain ⟨_, _, ⟨var, _, ⟨hv, rfl⟩, a, _, ⟨ha, rfl⟩, b, _, ⟨hb, rfl⟩, c, _, ⟨hc, rfl⟩, rfl, rfl⟩, rfl, -⟩ := h
    exact .big (by decide) hv ha hb hc

/-! ## What is made can be built -/

theorem Leading.leadingArgument {t : Token} {lead : List Expr} (h : s.Leading (some t) lead) (names : List String) :
    ∃ e names', lead = [e] ∧ s.leadingArgument t names = (.ok e, names') := by
  cases h with
  | @number _ e ht he =>
    refine ⟨e, names, rfl, ?_⟩
    rw [leadingArgument_eq, if_pos ht]
    exact number_eq_ok.mpr ⟨he, rfl⟩
  | name ht =>
    refine ⟨s.resolve t.lexeme .none, (s.identifier t.lexeme .none names).2, rfl, ?_⟩
    rw [leadingArgument_eq, if_neg ht]
    rfl

theorem Calls.call {name : String} {subscript : Option Token} {args : List Expr} {e : Expr}
    (h : s.Calls name subscript args e) (names : List String) :
    ∃ names', s.call name subscript args names = (.ok e, names') := by
  unfold Setting.call
  cases h with
  | @function f lead hf hl ha =>
    rw [hf]
    cases subscript with
    | none =>
      cases hl
      rw [List.nil_append] at ha ⊢
      refine ⟨names, ?_⟩
      dsimp only
      rw [pure_bind, Callable.checkArity, if_pos ha]
      rfl
    | some t =>
      obtain ⟨e, names', rfl, he⟩ := hl.leadingArgument names
      rw [List.singleton_append] at ha ⊢
      refine ⟨names', ?_⟩
      dsimp only
      rw [Build.bind_ok he, pure_bind, Callable.checkArity, if_pos ha]
      rfl
  | product hf ha =>
    subst ha
    rw [hf]
    exact ⟨_, rfl⟩

/-- What a rule makes is what is built, whatever variables were met before. -/
theorem Makes.builds {r : Rule} {payload : Payload} (h : s.Makes p r payload) : s.Builds p r payload := by
  intro names
  cases h with
  | hand hr he =>
    simp only [Rule.handing, List.mem_cons, Prod.mk.injEq, List.not_mem_nil, or_false] at hr
    rcases hr with ⟨rfl, rfl⟩ | ⟨rfl, rfl⟩ | ⟨rfl, rfl⟩ | ⟨rfl, rfl⟩ | ⟨rfl, rfl⟩ | ⟨rfl, rfl⟩ | ⟨rfl, rfl⟩ |
        ⟨rfl, rfl⟩ | ⟨rfl, rfl⟩ | ⟨rfl, rfl⟩ | ⟨rfl, rfl⟩ <;>
    · simp only [build, Build.bind_eq_ok, Build.pure_eq_ok, Phrase.expr_eq_ok]
      exact ⟨names, _, _, ⟨he, rfl⟩, rfl, rfl⟩
  | relation hr ha hb =>
    simp only [Rule.relations, List.mem_cons, Prod.mk.injEq, List.not_mem_nil, or_false] at hr
    rcases hr with ⟨rfl, rfl, rfl⟩ | ⟨rfl, rfl, rfl⟩ | ⟨rfl, rfl, rfl⟩ | ⟨rfl, rfl, rfl⟩ | ⟨rfl, rfl, rfl⟩ |
        ⟨rfl, rfl, rfl⟩ <;>
    · simp only [build, relationOf, Build.bind_eq_ok, Build.pure_eq_ok, Phrase.expr_eq_ok]
      exact ⟨names, _, _, ⟨_, _, ⟨ha, rfl⟩, _, _, ⟨hb, rfl⟩, rfl, rfl⟩, rfl, rfl⟩
  | interval hr ha hb =>
    simp only [Rule.intervals, List.mem_cons, Prod.mk.injEq, List.not_mem_nil, or_false] at hr
    rcases hr with ⟨rfl, rfl, rfl⟩ | ⟨rfl, rfl, rfl⟩ | ⟨rfl, rfl, rfl⟩ | ⟨rfl, rfl, rfl⟩ <;>
    · simp only [build, intervalOf, Build.bind_eq_ok, Build.pure_eq_ok, Phrase.expr_eq_ok]
      exact ⟨names, _, _, ⟨_, _, ⟨ha, rfl⟩, _, _, ⟨hb, rfl⟩, rfl, rfl⟩, rfl, rfl⟩
  | setInterval hn hs he =>
    refine ⟨names, Build.bind_eq_ok.mpr ⟨_, names, Phrase.lexeme_eq_ok.mpr ⟨hn, rfl⟩, ?_⟩⟩
    rw [hs]
    exact Build.bind_eq_ok.mpr ⟨_, names, Phrase.expr_eq_ok.mpr ⟨he, rfl⟩, rfl⟩
  | definition hn hp hb =>
    simp only [build, Build.bind_eq_ok, Build.pure_eq_ok, Phrase.args_eq_ok, Phrase.expr_eq_ok, Phrase.lexeme_eq_ok]
    exact ⟨names, _, _, ⟨hp, rfl⟩, _, _, ⟨hb, rfl⟩, _, _, ⟨hn, rfl⟩, rfl, rfl⟩
  | definitionWithoutParameters hn hb =>
    simp only [build, Build.bind_eq_ok, Build.pure_eq_ok, Phrase.expr_eq_ok, Phrase.lexeme_eq_ok]
    exact ⟨names, _, _, ⟨hb, rfl⟩, _, _, ⟨hn, rfl⟩, rfl, rfl⟩
  | firstArgument he =>
    simp only [build, Build.bind_eq_ok, Build.pure_eq_ok, Phrase.expr_eq_ok]
    exact ⟨names, _, _, ⟨he, rfl⟩, rfl, rfl⟩
  | nextArgument hs he =>
    simp only [build, Build.bind_eq_ok, Phrase.args_eq_ok, Phrase.expr_eq_ok, Build.pure_eq_ok]
    exact ⟨names, _, _, ⟨hs, rfl⟩, _, _, ⟨he, rfl⟩, rfl, rfl⟩
  | operation hr ha hb =>
    simp only [Rule.operations, List.mem_cons, Prod.mk.injEq, List.not_mem_nil, or_false] at hr
    rcases hr with ⟨rfl, rfl, rfl⟩ | ⟨rfl, rfl, rfl⟩ | ⟨rfl, rfl, rfl⟩ | ⟨rfl, rfl, rfl⟩ | ⟨rfl, rfl, rfl⟩ |
        ⟨rfl, rfl, rfl⟩
    iterate 5
      simp only [build, binaryOf, Build.bind_eq_ok, Build.pure_eq_ok, Phrase.expr_eq_ok]
      exact ⟨names, _, _, ⟨_, _, ⟨ha, rfl⟩, _, _, ⟨hb, rfl⟩, rfl, rfl⟩, rfl, rfl⟩
    simp only [build, Build.bind_eq_ok, Build.pure_eq_ok, Phrase.expr_eq_ok]
    exact ⟨names, _, _, ⟨ha, rfl⟩, _, _, ⟨hb, rfl⟩, rfl, rfl⟩
  | pos hr he =>
    rcases hr with rfl | rfl <;>
    · simp only [build, Build.bind_eq_ok, Build.pure_eq_ok, Phrase.expr_eq_ok]
      exact ⟨names, _, _, ⟨he, rfl⟩, rfl, rfl⟩
  | neg hr he =>
    rcases hr with rfl | rfl <;>
    · simp only [build, Build.bind_eq_ok, Build.pure_eq_ok, Phrase.expr_eq_ok]
      exact ⟨names, _, _, ⟨he, rfl⟩, rfl, rfl⟩
  | power ha hb hc =>
    simp only [build, Build.bind_eq_ok, Phrase.expr_eq_ok, Build.pure_eq_ok, Build.ofExcept_eq_ok,
      Expr.checkedPower_eq_ok]
    exact ⟨names, _, _, ⟨ha, rfl⟩, _, _, ⟨hb, rfl⟩, _, _, ⟨⟨hc, rfl⟩, rfl⟩, rfl, rfl⟩
  | factorial ha hc =>
    simp only [build, Build.bind_eq_ok, Phrase.expr_eq_ok, Build.pure_eq_ok, Build.ofExcept_eq_ok,
      Expr.checkedFactorial_eq_ok]
    exact ⟨names, _, _, ⟨ha, rfl⟩, _, _, ⟨⟨hc, rfl⟩, rfl⟩, rfl, rfl⟩
  | number hr ht he =>
    rcases hr with rfl | rfl <;>
    · simp only [build, Build.bind_eq_ok, Build.pure_eq_ok, Phrase.token_eq_ok, number_eq_ok]
      exact ⟨names, _, _, ⟨ht, rfl⟩, _, _, ⟨he, rfl⟩, rfl, rfl⟩
  | bars he =>
    simp only [build, Build.bind_eq_ok, Build.pure_eq_ok, Phrase.expr_eq_ok]
    exact ⟨names, _, _, ⟨he, rfl⟩, rfl, rfl⟩
  | @function _ f hn hb hf =>
    obtain ⟨t, ht, rfl⟩ := hn
    have hname : s.nameOrFunction p = pure (.function f) := by
      rw [nameOrFunction_eq ht, if_pos hb, hf]
      rfl
    simp only [build, hname, Build.bind_eq_ok, Build.pure_eq_ok]
    exact ⟨names, _, _, ⟨rfl, rfl⟩, rfl, rfl⟩
  | identifier hr hb hn =>
    obtain ⟨t, ht, rfl⟩ := hn
    refine ⟨(s.identifier t.lexeme none names).2, ?_⟩
    rcases hr with rfl | rfl
    · have hname : s.nameOrFunction p = s.identifier t.lexeme none := by
        rw [nameOrFunction_eq ht]
        split
        · rw [hb rfl ‹_›]
          rfl
        · rfl
      simp only [build, hname, Build.bind_eq_ok, Build.pure_eq_ok]
      exact ⟨_, _, rfl, rfl, rfl⟩
    · simp only [build, Build.bind_eq_ok, Build.pure_eq_ok, Phrase.lexeme_eq_ok]
      exact ⟨_, _, ⟨⟨t, ht, rfl⟩, rfl⟩, _, _, rfl, rfl, rfl⟩
  | @subscript r name sub hr hn hs =>
    refine ⟨(s.identifier name (some sub) names).2, ?_⟩
    rcases hr with rfl | rfl <;>
    · simp only [build, Build.bind_eq_ok, Build.pure_eq_ok, Phrase.lexeme_eq_ok]
      exact ⟨_, _, ⟨hn, rfl⟩, _, _, ⟨hs, rfl⟩, _, _, rfl, rfl, rfl⟩
  | call hn ha he =>
    obtain ⟨names', he⟩ := he.call names
    refine ⟨names', ?_⟩
    simp only [build, Build.bind_eq_ok, Build.pure_eq_ok, Phrase.args_eq_ok, Phrase.lexeme_eq_ok]
    exact ⟨_, _, ⟨ha, rfl⟩, _, _, ⟨hn, rfl⟩, _, _, he, rfl, rfl⟩
  | callWithoutArguments hn he =>
    obtain ⟨names', he⟩ := he.call names
    refine ⟨names', ?_⟩
    simp only [build, Build.bind_eq_ok, Build.pure_eq_ok, Phrase.lexeme_eq_ok]
    exact ⟨_, _, ⟨hn, rfl⟩, _, _, he, rfl, rfl⟩
  | subscriptCall hr hn hs ha he =>
    obtain ⟨names', he⟩ := he.call names
    refine ⟨names', ?_⟩
    rcases hr with rfl | rfl <;>
    · simp only [build, Build.bind_eq_ok, Build.pure_eq_ok, Phrase.args_eq_ok, Phrase.lexeme_eq_ok,
        Phrase.token_eq_ok]
      exact ⟨_, _, ⟨ha, rfl⟩, _, _, ⟨hn, rfl⟩, _, _, ⟨hs, rfl⟩, _, _, he, rfl, rfl⟩
  | composition hn hf he =>
    refine ⟨names, Build.bind_eq_ok.mpr ⟨_, names, Phrase.lexeme_eq_ok.mpr ⟨hn, rfl⟩, ?_⟩⟩
    rw [hf]
    exact Build.bind_eq_ok.mpr ⟨_, names, Phrase.expr_eq_ok.mpr ⟨he, rfl⟩, rfl⟩
  | limit ht ha hb =>
    simp only [build, Build.bind_eq_ok, Build.pure_eq_ok, Phrase.expr_eq_ok, Phrase.lexeme_eq_ok]
    exact ⟨names, _, _, ⟨ht, rfl⟩, _, _, ⟨ha, rfl⟩, _, _, ⟨hb, rfl⟩, rfl, rfl⟩
  | big hr hv ha hb hc =>
    simp only [Rule.bigOperators, List.mem_cons, Prod.mk.injEq, List.not_mem_nil, or_false] at hr
    refine ⟨names, ?_⟩
    rcases hr with ⟨rfl, rfl⟩ | ⟨rfl, rfl⟩ <;>
    · simp only [build, bigOf, Build.bind_eq_ok, Build.pure_eq_ok, Phrase.expr_eq_ok, Phrase.lexeme_eq_ok]
      exact ⟨_, _, ⟨_, _, ⟨hv, rfl⟩, _, _, ⟨ha, rfl⟩, _, _, ⟨hb, rfl⟩, _, _, ⟨hc, rfl⟩, rfl, rfl⟩, rfl, rfl⟩

end Setting

end Formula
