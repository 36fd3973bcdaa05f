import Formula.Proofs.Expr.Safety
import Formula.Proofs.LR.InStep

/-!
# What a text is read by

Two readings come to the same if they take the same kinds of tokens, the same spellings of numbers and identifiers, the
same limits, and catalogs that know the same of those identifiers. `Setting.Likeness` puts this as a relation between
the tokens of two texts, each read with its own setting: everything else about a token may differ, as far as the errors
may differ that name it.

An action that builds looks at its phrase by `token`, `lexeme`, `expr` and `args` only, and these agree on phrases of
one rule (`Phrase.Matches`); so the actions agree (`concur_build`), the two parsers stay in step (`Likeness.inStep`),
and in the end there is the same tree or the same error (`Likeness.parseTokens_concur`).
-/

namespace Formula

open Text (Position Span)

/-! ## Catalogs -/

/-- Two catalogs know the same of a name and of its letters. -/
structure Catalog.Agree (c c' : Catalog) (name : String) : Prop where
  function : c.function? name = c'.function? name
  constant : c.constant? name = c'.constant? name
  symbol : c.isSymbol name = c'.isSymbol name
  letters : ∀ x ∈ name.toList, c.constant? (String.ofList [x]) = c'.constant? (String.ofList [x])

theorem Catalog.Agree.refl (c : Catalog) (name : String) : c.Agree c name := ⟨rfl, rfl, rfl, fun _ _ => rfl⟩

namespace Setting

variable {s s' : Setting}

theorem letter_congr {name : String} (h : s.catalog.constant? name = s'.catalog.constant? name)
    (subscript : Option String) : s.letter name subscript = s'.letter name subscript := by
  unfold letter
  rw [h]

/-- The names that an identifier stands for are looked up whole and by letters. -/
theorem letters_congr {name : String} (h : s.catalog.Agree s'.catalog name) (subscript : Option String) :
    s.letters name subscript = s'.letters name subscript := by
  have hwhole : s.isWhole name = s'.isWhole name := by rw [isWhole, isWhole, h.constant, h.symbol]
  unfold letters
  rw [hwhole, letter_congr h.constant]
  split
  · rfl
  · have hsingle : ∀ single ∈ (name.toList.map fun c => String.ofList [c]).reverse,
        s.catalog.constant? single = s'.catalog.constant? single := by
      intro single hm
      obtain ⟨x, hx, rfl⟩ := List.mem_map.mp (List.mem_reverse.mp hm)
      exact h.letters x hx
    dsimp only
    generalize (name.toList.map fun c => String.ofList [c]).reverse = singles at hsingle ⊢
    cases singles with
    | nil => rfl
    | cons last before =>
      obtain ⟨hlast, hbefore⟩ := List.forall_mem_cons.mp hsingle
      dsimp only
      have hmap : before.reverse.map (s.letter · none) = before.reverse.map (s'.letter · none) :=
        List.map_congr_left fun single hm => letter_congr (hbefore single (List.mem_reverse.mp hm)) none
      rw [letter_congr hlast, hmap]

theorem identifier_congr {name : String} (h : s.catalog.Agree s'.catalog name) (subscript : Option String) :
    s.identifier name subscript = s'.identifier name subscript := by
  unfold identifier
  rw [letters_congr h]

end Setting

/-! ## Actions that build alike -/

/-- The actions fail alike or build what is related, and meet the same variables. -/
def Build.Concur {α β : Type} (E : Error → Error → Prop) (V : α → β → Prop) (x : Build α) (y : Build β) : Prop :=
  ∀ names, LR.Concur E V (x names) (y names)

namespace Build.Concur

variable {α β γ δ : Type} {E : Error → Error → Prop} {V : α → β → Prop} {W : γ → δ → Prop}

theorem pure {a : α} {b : β} (h : V a b) : Concur E V (Pure.pure a) (Pure.pure b) := fun names => .ok h names

theorem throw {e e' : Error} (h : E e e') :
    Concur E V (MonadExcept.throw e : Build α) (MonadExcept.throw e' : Build β) := fun names => .error h names

theorem rfl (hE : ∀ e, E e e) {x : Build α} : Concur E (· = ·) x x := fun names => by
  generalize x names = answer
  obtain ⟨e | a, names'⟩ := answer
  · exact .error (hE e) names'
  · exact .ok (Eq.refl a) names'

theorem bind {x : Build α} {y : Build β} {f : α → Build γ} {k : β → Build δ} (hx : Concur E V x y)
    (hf : ∀ a b, V a b → Concur E W (f a) (k b)) : Concur E W (x >>= f) (y >>= k) := fun names => by
  change LR.Concur E W (match x names with
    | (a, names) => ExceptT.bindCont f a names) (match y names with
    | (b, names) => ExceptT.bindCont k b names)
  have hnames := hx names
  generalize x names = answer at hnames ⊢
  generalize y names = answer' at hnames ⊢
  cases hnames with
  | ok h memo => exact hf _ _ h memo
  | error h memo => exact .error h memo

/-- The first actions build the same. -/
theorem bind_eq {x y : Build α} {f : α → Build γ} {k : α → Build δ} (hx : Concur E (· = ·) x y)
    (hf : ∀ a, Concur E W (f a) (k a)) : Concur E W (x >>= f) (y >>= k) :=
  hx.bind fun a b h => by
    cases h
    exact hf a

end Build.Concur

/-! ## Tokens and phrases -/

/-- What two settings have in common that read related tokens alike. -/
structure Setting.Likeness (R : Token → Token → Prop) (E : Error → Error → Prop) (s s' : Setting) : Prop where
  limits : s.limits = s'.limits
  symbol : ∀ {t t'}, R t t' → t.symbol = t'.symbol
  lexeme : ∀ {t t'}, R t t' → t.symbol = .number ∨ t.symbol = .identifier → t.lexeme = t'.lexeme
  agree : ∀ {t t'}, R t t' → t.symbol = .identifier → s.catalog.Agree s'.catalog t.lexeme
  refl : ∀ e, E e e
  unexpected : ∀ {t t'}, R t t' → E (Setting.unexpected t) (Setting.unexpected t')
  unrecognized : ∀ {t t'}, R t t' → t.symbol = .number →
    E (.unrecognized t.lexeme t.position) (.unrecognized t'.lexeme t'.position)

variable {R : Token → Token → Prop} {E : Error → Error → Prop}

/-- Tokens on the stacks: related as those of the input, or reduced to the same. -/
structure Token.Matches (R : Token → Token → Prop) (t t' : Token) : Prop where
  symbol : t.symbol = t'.symbol
  terminal : t.symbol.isTerminal = true → R t t'
  payload : t.symbol.isTerminal = false → t.payload = t'.payload

theorem Token.Matches.exprOf_eq {t t' : Token} (h : t.Matches R t') (hn : t.symbol.isTerminal = false) :
    Setting.exprOf t = Setting.exprOf t' := by
  unfold Setting.exprOf
  rw [h.payload hn, h.symbol]

/-- The phrases are of one right-hand side, with related tokens. -/
structure Phrase.Matches (R : Token → Token → Prop) (rhs : List Symbol) (p p' : Phrase) : Prop where
  symbols : p.tokens.map (·.symbol) = rhs
  tokens : List.Forall₂ (Token.Matches R) p.tokens p'.tokens
  below : p.below = p'.below

/-- Related rows have related elements in the same places. -/
theorem getElem?_of_forall₂ {α : Type} {V : α → α → Prop} {l l' : List α} (h : List.Forall₂ V l l') {i : Nat} {a : α}
    (ha : l[i]? = some a) : ∃ b, l'[i]? = some b ∧ V a b := by
  obtain ⟨hi, rfl⟩ := List.getElem?_eq_some_iff.mp ha
  exact ⟨_, List.getElem?_eq_getElem (h.length_eq ▸ hi), h.get hi (h.length_eq ▸ hi)⟩

namespace Phrase.Matches

variable {rhs : List Symbol} {p p' : Phrase} {i : Nat} {x : Symbol}

/-- Looking at a place of both phrases. -/
theorem look (h : p.Matches R rhs p') (hx : rhs[i]? = some x) :
    Build.Concur E (fun t t' => t.symbol = x ∧ t.Matches R t') (p.token i) (p'.token i) := by
  rw [← h.symbols, List.getElem?_map] at hx
  obtain ⟨t, ht, hsymbol⟩ := Option.map_eq_some_iff.mp hx
  obtain ⟨t', ht', hmatches⟩ := getElem?_of_forall₂ h.tokens ht
  unfold Phrase.token
  rw [ht, ht']
  exact .pure ⟨hsymbol, hmatches⟩

theorem token (h : p.Matches R rhs p') (hx : rhs[i]? = some x) (hterminal : x.isTerminal = true) :
    Build.Concur E (fun t t' => t.symbol = x ∧ R t t') (p.token i) (p'.token i) := fun names =>
  (h.look hx names).imp fun _ _ ht => ⟨ht.1, ht.2.terminal (ht.1 ▸ hterminal)⟩

section

variable {s s' : Setting} (hl : s.Likeness R E s')

include hl

theorem lexeme (h : p.Matches R rhs p') (hx : rhs[i]? = some x) (hword : x = .number ∨ x = .identifier) :
    Build.Concur E (· = ·) (p.lexeme i) (p'.lexeme i) := by
  have hterminal : x.isTerminal = true := by rcases hword with rfl | rfl <;> rfl
  exact (h.token hx hterminal).bind fun t t' ht => .pure (hl.lexeme ht.2 (ht.1 ▸ hword))

/-- Of a name that both phrases have, the catalogs know the same. -/
theorem name (h : p.Matches R rhs p') (hx : rhs[i]? = some .identifier) :
    Build.Concur E (fun a b => a = b ∧ s.catalog.Agree s'.catalog a) (p.lexeme i) (p'.lexeme i) :=
  (h.token hx rfl).bind fun _ _ ht => .pure ⟨hl.lexeme ht.2 (.inr ht.1), hl.agree ht.2 ht.1⟩

theorem bind_name {α : Type} {V : α → α → Prop} {f k : String → Build α} (h : p.Matches R rhs p')
    (hx : rhs[i]? = some .identifier)
    (hf : ∀ name, s.catalog.Agree s'.catalog name → Build.Concur E V (f name) (k name)) :
    Build.Concur E V (p.lexeme i >>= f) (p'.lexeme i >>= k) :=
  (h.name hl hx).bind fun name _ hname => hname.1 ▸ hf name hname.2

theorem expr (h : p.Matches R rhs p') (hx : rhs[i]? = some x) (hn : x.isTerminal = false) :
    Build.Concur E (· = ·) (p.expr i) (p'.expr i) := by
  refine (h.look hx).bind fun t t' ht => ?_
  rw [ht.2.payload (ht.1 ▸ hn), ht.2.symbol]
  exact .rfl hl.refl

theorem args (h : p.Matches R rhs p') (hx : rhs[i]? = some x) (hn : x.isTerminal = false) :
    Build.Concur E (· = ·) (p.args i) (p'.args i) := by
  refine (h.look hx).bind fun t t' ht => ?_
  rw [ht.2.payload (ht.1 ▸ hn), ht.2.symbol]
  exact .rfl hl.refl

end

end Phrase.Matches

/-! ## Rules -/

namespace Setting

variable {s s' : Setting} {p p' : Phrase}

section

variable (hl : s.Likeness R E s')

include hl

theorem concur_identifier {name : String} (hname : s.catalog.Agree s'.catalog name) (subscript : Option String) :
    Build.Concur E (· = ·) (s.identifier name subscript) (s'.identifier name subscript) := by
  rw [identifier_congr hname]
  exact .rfl hl.refl

theorem concur_number {t t' : Token} (h : R t t') (ht : t.symbol = .number) :
    Build.Concur E (· = ·) (s.number t) (s'.number t') := by
  unfold number
  rw [← hl.lexeme h (.inl ht), ← hl.limits]
  cases Number.ofLiteral? t.lexeme with
  | none => exact .throw (hl.lexeme h (.inl ht) ▸ hl.unrecognized h ht)
  | some v => exact .rfl hl.refl

/-- Subscripts are numbers or identifiers. -/
theorem concur_leadingArgument {t t' : Token} (h : R t t') (ht : t.symbol = .number ∨ t.symbol = .identifier) :
    Build.Concur E (· = ·) (s.leadingArgument t) (s'.leadingArgument t') := by
  rw [leadingArgument_eq, leadingArgument_eq, ← hl.symbol h]
  rcases ht with ht | ht
  · rw [if_pos ht, if_pos ht]
    exact concur_number hl h ht
  · have hne : t.symbol ≠ .number := by rw [ht]; decide
    rw [if_neg hne, if_neg hne, ← hl.lexeme h (.inr ht)]
    exact concur_identifier hl (hl.agree h ht) none

/-- The subscripts of two calls: none, or related tokens that are numbers or identifiers. -/
def Subscripts (R : Token → Token → Prop) : Option Token → Option Token → Prop :=
  Option.Rel fun t t' => R t t' ∧ (t.symbol = .number ∨ t.symbol = .identifier)

theorem map_lexeme_of_subscripts {subscript subscript' : Option Token}
    (h : Subscripts R subscript subscript') : subscript.map (·.lexeme) = subscript'.map (·.lexeme) := by
  cases h with
  | none => rfl
  | some h => exact congrArg some (hl.lexeme h.1 h.2)

theorem concur_call {name : String} (hname : s.catalog.Agree s'.catalog name) {subscript subscript' : Option Token}
    (hsubscript : Subscripts R subscript subscript') (args : List Expr) :
    Build.Concur E (· = ·) (s.call name subscript args) (s'.call name subscript' args) := by
  unfold call
  rw [← hname.function, ← map_lexeme_of_subscripts hl hsubscript, identifier_congr hname]
  cases s.catalog.function? name with
  | none => exact .rfl hl.refl
  | some f =>
    cases hsubscript with
    | none => exact .rfl hl.refl
    | some h => exact .bind_eq (concur_leadingArgument hl h.1 h.2) fun _ => .rfl hl.refl

theorem concur_nameOrFunction {rhs : List Symbol} (h : p.Matches R rhs p') (hx : rhs[0]? = some .identifier) :
    Build.Concur E (· = ·) (s.nameOrFunction p) (s'.nameOrFunction p') := by
  refine h.bind_name hl hx fun name hname => ?_
  rw [h.below, hname.function, identifier_congr hname]
  exact .rfl hl.refl

/-- The action of a rule builds the same from phrases that match, and fails alike. -/
theorem concur_build {f : Rule.Form} (hf : f ∈ Rule.table) (h : p.Matches R f.rhs p') :
    Build.Concur E (· = ·) (s.build p f.rule) (s'.build p' f.rule) := by
  have hform := Rule.form?_of_mem hf
  have hsame : ∀ {α : Type} (x : Build α), Build.Concur E (· = ·) x x := fun _ => .rfl hl.refl
  generalize f.rule = r at hform
  cases r <;> obtain rfl := Option.some.inj hform <;> unfold build
  case start | definitionStart | plain | bareInterval | groupExpression | unaryExpression | firstArgument |
      parentheses | brackets | braces | parenthesesBound | bracesBound | plusGroup | plusUnary | minusGroup |
      minusUnary | bars =>
    exact .bind_eq (h.expr hl rfl rfl) fun _ => hsame _
  case equalTo | unequalTo | lessThan | greaterThan | atMost | atLeast | sum | difference | product | quotient |
      remainder | closedInterval | rightOpenInterval | leftOpenInterval | openInterval =>
    refine .bind_eq ?_ fun _ => hsame _
    exact .bind_eq (h.expr hl rfl rfl) fun _ => .bind_eq (h.expr hl rfl rfl) fun _ => hsame _
  case juxtaposition =>
    exact .bind_eq (h.expr hl rfl rfl) fun _ => .bind_eq (h.expr hl rfl rfl) fun _ => hsame _
  case setInterval =>
    refine .bind_eq (h.lexeme hl rfl (.inr rfl)) fun name => ?_
    cases NumberSet.ofName? name with
    | none => exact hsame _
    | some set => exact .bind_eq (h.expr hl rfl rfl) fun _ => hsame _
  case definition =>
    refine .bind_eq (h.args hl rfl rfl) fun _ => .bind_eq (h.expr hl rfl rfl) fun _ => ?_
    exact .bind_eq (h.lexeme hl rfl (.inr rfl)) fun _ => hsame _
  case definitionWithoutParameters =>
    exact .bind_eq (h.expr hl rfl rfl) fun _ => .bind_eq (h.lexeme hl rfl (.inr rfl)) fun _ => hsame _
  case nextArgument =>
    exact .bind_eq (h.args hl rfl rfl) fun _ => .bind_eq (h.expr hl rfl rfl) fun _ => hsame _
  case power =>
    rw [hl.limits]
    exact .bind_eq (h.expr hl rfl rfl) fun _ => .bind_eq (h.expr hl rfl rfl) fun _ => hsame _
  case factorial =>
    rw [hl.limits]
    exact .bind_eq (h.expr hl rfl rfl) fun _ => hsame _
  case number | numberBound =>
    refine .bind (h.token rfl rfl) fun t t' ht => .bind_eq (concur_number hl ht.2 ht.1) fun _ => hsame _
  case identifier => exact .bind_eq (concur_nameOrFunction hl h rfl) fun _ => hsame _
  case identifierBound =>
    exact h.bind_name hl rfl fun name hname => .bind_eq (concur_identifier hl hname none) fun _ => hsame _
  case numberSubscript | nameSubscript =>
    refine h.bind_name hl rfl fun name hname => .bind_eq (h.lexeme hl rfl (by decide)) fun subscript => ?_
    exact .bind_eq (concur_identifier hl hname (some subscript)) fun _ => hsame _
  case call =>
    refine .bind_eq (h.args hl rfl rfl) fun args => h.bind_name hl rfl fun name hname => ?_
    exact .bind_eq (concur_call hl hname .none args) fun _ => hsame _
  case callWithoutArguments =>
    exact h.bind_name hl rfl fun name hname => .bind_eq (concur_call hl hname .none []) fun _ => hsame _
  case numberSubscriptCall | nameSubscriptCall =>
    refine .bind_eq (h.args hl rfl rfl) fun args => h.bind_name hl rfl fun name hname => ?_
    refine .bind (h.token rfl rfl) fun t t' ht => ?_
    refine .bind_eq (concur_call hl hname (.some ⟨ht.2, ?_⟩) args) fun _ => hsame _
    rw [ht.1]
    decide
  case composition =>
    refine h.bind_name hl rfl fun name hname => ?_
    rw [hname.function]
    cases s'.catalog.function? name with
    | none => exact hsame _
    | some f => exact .bind_eq (h.expr hl rfl rfl) fun _ => hsame _
  case limit =>
    refine .bind_eq (h.lexeme hl rfl (.inr rfl)) fun _ => .bind_eq (h.expr hl rfl rfl) fun _ => ?_
    exact .bind_eq (h.expr hl rfl rfl) fun _ => hsame _
  case bigSum | bigProduct =>
    refine .bind_eq (.bind_eq (h.lexeme hl rfl (.inr rfl)) fun _ => ?_) fun _ => hsame _
    refine .bind_eq (h.expr hl rfl rfl) fun _ => ?_
    exact .bind_eq (h.expr hl rfl rfl) fun _ => .bind_eq (h.expr hl rfl rfl) fun _ => hsame _

/-- A reduction of phrases that match leaves stacks that match, or fails alike. -/
theorem concur_reduce {number : Nat} {f : Rule.Form} (hf : Rule.form? number = some f) {stack stack' : List Token}
    (h : (stack.take f.rhs.length).map (·.symbol) = f.rhs.reverse)
    (hstack : List.Forall₂ (Token.Matches R) stack stack') (atEnd atEnd' : Span) :
    Build.Concur E (List.Forall₂ (Token.Matches R)) (s.reduce atEnd number stack) (s'.reduce atEnd' number stack') := by
  have hlhs : ∀ f ∈ Rule.table, f.lhs.isTerminal = false := by decide
  unfold reduce
  rw [hf, ← hstack.length_eq]
  dsimp only
  split
  · exact .throw (hl.refl _)
  refine .bind (concur_build hl (List.mem_of_getElem? hf) ⟨?_, ?_, ?_⟩) fun payload payload' hpayload => .pure ?_
  · rw [List.map_reverse, h, List.reverse_reverse]
  · exact List.forall₂_reverse_iff.mpr (List.forall₂_take _ hstack)
  · rw [← List.getElem?_map, ← List.getElem?_map, map_symbol_of_forall₂ (fun _ _ h => h.symbol) hstack]
  · have hnonterminal := hlhs f (List.mem_of_getElem? hf)
    refine .cons ⟨rfl, fun hterminal => ?_, fun _ => hpayload⟩ (List.forall₂_drop _ hstack)
    rw [hnonterminal] at hterminal
    cases hterminal

/-! ## Parsers in step -/

theorem Likeness.inStep {stop stop' : Position} (hstop : R (.finish stop) (.finish stop')) :
    (s.semantics stop).InStep Rule.grammar R (Token.Matches R) E (s'.semantics stop') where
  symbol h := congrArg Symbol.index (hl.symbol h)
  shift h hterminal := by
    refine ⟨hl.symbol h, fun _ => h, fun hn => ?_⟩
    rw [Symbol.isTerminal, decide_eq_false_iff_not] at hn
    exact absurd hterminal hn
  endToken := hstop
  choose {number next next' stack stack' rest rest' names} hnext hstack hrest := by
    refine .ok ?_ names
    rw [hl.symbol hnext, map_symbol_of_forall₂ (fun _ _ h => h.symbol) hstack,
      map_symbol_of_forall₂ (fun _ _ h => hl.symbol h) hrest]
  reduce {number p next next' stack stack' names} hp hphrase hnext hstack := by
    obtain ⟨f, hf, rfl⟩ := Rule.exists_form hp
    refine concur_reduce hl hf (Symbol.map_index_injective ?_) hstack _ _ names
    rw [List.length_map] at hphrase
    rw [List.map_map, List.map_reverse, ← hphrase, List.map_take]
    rfl
  unexpected h := hl.unexpected h
  fault _ := hl.refl _

variable {tokens tokens' : List Token}

theorem Likeness.run_inStep (hstop : R (.finish (stopOf tokens)) (.finish (stopOf tokens')))
    (h : List.Forall₂ R tokens tokens') (goal : Goal) (names : List String) :
    (s.run goal tokens names).InStep (Token.Matches R) E (s'.run goal tokens' names) := by
  rw [Setting.run, Setting.run, ← h.length_eq]
  exact LR.run_inStep Rule.augmented (s.lawful _) (hl.inStep hstop) (goal_lt goal) (fun t _ => t.symbol.index_lt) h _ _

/-- Related texts are parsed alike: to the same tree or with related errors, with the same variables and in as many
turns of each kind. -/
theorem Likeness.parseTokens_concur (hstop : R (.finish (stopOf tokens)) (.finish (stopOf tokens')))
    (h : List.Forall₂ R tokens tokens') (goal : Goal) (names : List String) :
    LR.Concur E (· = ·) ((s.parseTokens goal tokens names).result, (s.parseTokens goal tokens names).variableNames)
        ((s'.parseTokens goal tokens' names).result, (s'.parseTokens goal tokens' names).variableNames) ∧
      (s.run goal tokens names).stats = (s'.run goal tokens' names).stats := by
  have hrun := hl.run_inStep hstop h goal names
  unfold Setting.parseTokens
  have hok : ∀ token, (s.run goal tokens names).result = .ok token → token.symbol.isTerminal = false := by
    intro token htoken
    obtain ⟨_, _, _, _, _, _, _, hsymbol⟩ := exists_moves htoken
    rw [hsymbol]
    cases goal <;> rfl
  generalize s.run goal tokens names = o at hrun hok ⊢
  generalize s'.run goal tokens' names = o' at hrun ⊢
  obtain ⟨result, stats, memo⟩ := o
  obtain ⟨result', stats', memo'⟩ := o'
  cases hrun with
  | error he => exact ⟨.error he _, rfl⟩
  | @ok token token' htoken =>
    refine ⟨?_, rfl⟩
    change LR.Concur E (· = ·) ((do return (← exprOf token).classify), _) ((do return (← exprOf token').classify), _)
    rw [htoken.exprOf_eq (hok token rfl)]
    generalize exprOf token' = answer
    cases answer with
    | ok e => exact .ok rfl _
    | error e => exact .error (hl.refl e) _

end

end Setting

end Formula
