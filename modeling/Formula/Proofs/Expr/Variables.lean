import Formula.Proofs.Expr.Invariant
import Formula.Proofs.LR.Memory
import Formula.Proofs.Token.Layout

/-!
# The variables that a parse remembers

While it reduces, the parser writes down each variable that it makes. It only adds to the list, also when it fails
(`Setting.adds_build`), and what it adds is matched by the variables in the trees on its stack: a rule hands on the
variables of its phrase, and those that it makes itself are written down (`Setting.logged_build`). The order may differ,
since the name in front of an argument is read when the argument is on the stack already. So when a text is read as a
tree, the list has grown by the variables of the tree, each as often as it stands there (`Setting.parseAfter_variableNames`).

Names that are no words of the text would be read as variables that nobody wrote down; but the lexemes of identifiers
are not empty, and no identifiers are made by reductions.
-/

namespace Formula

open Text (Position Span)

/-! ## The variables of a tree -/

namespace Expr

mutual

/-- The names of the variables of a tree, each as often as it stands there. The parameters of a definition are among
them, the variables of limits and big operators by themselves are not. -/
def variableNames : Expr → List String
  | .variable name => [name]
  | .number .. | .constant .. | .function _ => []
  | .pos a | .neg a | .factorial a _ | .absolute a | .setInterval _ a | .truth a => a.variableNames
  | .binary _ a b | .power a b _ | .compose a b | .relation _ a b | .interval _ a b _ | .limit _ a b =>
    a.variableNames ++ b.variableNames
  | .definition _ params body => variableNamesOf params ++ body.variableNames
  | .call _ args => variableNamesOf args
  | .big _ _ a b c => a.variableNames ++ b.variableNames ++ c.variableNames

def variableNamesOf : List Expr → List String
  | [] => []
  | e :: es => e.variableNames ++ variableNamesOf es

end

theorem variableNamesOf_append (es es' : List Expr) :
    variableNamesOf (es ++ es') = variableNamesOf es ++ variableNamesOf es' := by
  induction es with
  | nil => rfl
  | cons e es ih => rw [List.cons_append, variableNamesOf, variableNamesOf, ih, List.append_assoc]

theorem variableNamesOf_singleton (e : Expr) : variableNamesOf [e] = e.variableNames := List.append_nil _

theorem variableNames_classify (e : Expr) : e.classify.variableNames = e.variableNames := by
  unfold classify
  split
  · split <;> rfl
  · rfl

end Expr

/-- The variables of what is carried. -/
def Payload.variableNames : Payload → List String
  | .nothing => []
  | .expr e => e.variableNames
  | .args es => Expr.variableNamesOf es

/-- The variables of the trees that a token carries. -/
def Token.variableNames (t : Token) : List String := t.payload.variableNames

/-! ## How the list grows -/

namespace Rule

/-- The rules that read names. -/
def naming : List Rule :=
  [.identifier, .identifierBound, .numberSubscript, .nameSubscript, .call, .callWithoutArguments, .numberSubscriptCall,
    .nameSubscriptCall]

end Rule

namespace Build

variable {α β : Type} {may : Prop}

/-- The action only adds to the list, and it leaves the list as it is unless it may add; whether it succeeds or not. -/
def Adds (may : Prop) (x : Build α) : Prop := ∀ names, names <+: (x names).2 ∧ (¬ may → (x names).2 = names)

namespace Adds

theorem pure (a : α) : Adds may (Pure.pure a) := fun names => ⟨List.prefix_refl names, fun _ => rfl⟩

theorem throw (e : Error) : Adds may (throw e : Build α) := fun names => ⟨List.prefix_refl names, fun _ => rfl⟩

theorem ofExcept (x : Except Error α) : Adds may (Build.ofExcept x) :=
  fun names => ⟨List.prefix_refl names, fun _ => rfl⟩

theorem bind {x : Build α} {f : α → Build β} (hx : Adds may x) (hf : ∀ a, Adds may (f a)) : Adds may (x >>= f) := by
  intro names
  have hx := hx names
  cases hr : x names with
  | mk r between =>
    rw [hr] at hx
    cases r with
    | error e => rwa [bind_error hr]
    | ok a =>
      rw [bind_ok hr]
      exact ⟨hx.1.trans (hf a between).1, fun h => ((hf a between).2 h).trans (hx.2 h)⟩

end Adds

end Build

section

open Build (Adds)

variable {may : Prop}

namespace Phrase

variable (p : Phrase) (place : Nat)

theorem adds_token : Adds may (p.token place) := by
  unfold token
  split
  · exact .pure _
  · exact .throw _

theorem adds_lexeme : Adds may (p.lexeme place) := .bind (p.adds_token place) fun _ => .pure _

theorem adds_expr : Adds may (p.expr place) := by
  refine .bind (p.adds_token place) fun t => ?_
  split
  · exact .pure _
  · exact .throw _

theorem adds_args : Adds may (p.args place) := by
  refine .bind (p.adds_token place) fun t => ?_
  split
  · exact .pure _
  · exact .throw _

end Phrase

namespace Setting

variable {s : Setting}

theorem adds_number (t : Token) : Adds may (s.number t) := by
  unfold number
  split
  · exact .throw _
  · exact .ofExcept _

section

variable (hname : ∀ name subscript, Adds may (s.identifier name subscript))

include hname

theorem adds_leadingArgument (t : Token) : Adds may (s.leadingArgument t) := by
  rw [leadingArgument_eq]
  split
  · exact adds_number t
  · exact hname _ _

theorem adds_call (name : String) (subscript : Option Token) (args : List Expr) :
    Adds may (s.call name subscript args) := by
  unfold call
  cases s.catalog.function? name with
  | some f =>
    cases subscript with
    | none =>
      refine .bind (.pure _) fun args => ?_
      dsimp only
      cases f.checkArity args.length with
      | ok => exact .pure _
      | error => exact .throw _
    | some t =>
      refine .bind (adds_leadingArgument hname t) fun _ => .bind (.pure _) fun args => ?_
      dsimp only
      cases f.checkArity args.length with
      | ok => exact .pure _
      | error => exact .throw _
  | none =>
    rcases args with _ | ⟨arg, _ | ⟨_, _⟩⟩
    · exact .throw _
    · exact .bind (hname _ _) fun _ => .pure _
    · exact .throw _

theorem adds_nameOrFunction (p : Phrase) : Adds may (s.nameOrFunction p) := by
  refine .bind (p.adds_lexeme 0) fun name => ?_
  split
  · exact .pure _
  · exact hname _ _

end

theorem adds_identifier (name : String) (subscript : Option String) (h : may) :
    Adds may (s.identifier name subscript) := fun names => ⟨List.prefix_append names _, fun hnot => absurd h hnot⟩

/-- A rule only adds to the list, and only if it reads names. -/
theorem adds_build (p : Phrase) (r : Rule) : Adds (r ∈ Rule.naming) (s.build p r) := by
  have hname : r ∈ Rule.naming → ∀ name subscript, Adds (r ∈ Rule.naming) (s.identifier name subscript) :=
    fun h name subscript => adds_identifier name subscript h
  have hexpr : ∀ i, Adds (r ∈ Rule.naming) (p.expr i) := p.adds_expr
  have hargs : ∀ i, Adds (r ∈ Rule.naming) (p.args i) := p.adds_args
  have hlexeme : ∀ i, Adds (r ∈ Rule.naming) (p.lexeme i) := p.adds_lexeme
  have hpair : ∀ (i j : Nat) (f : Expr → Expr → Expr), Adds (r ∈ Rule.naming) do return f (← p.expr i) (← p.expr j) :=
    fun i j f => .bind (hexpr i) fun _ => .bind (hexpr j) fun _ => .pure _
  cases r
  case equalTo | unequalTo | lessThan | greaterThan | atMost | atLeast | closedInterval | rightOpenInterval |
      leftOpenInterval | openInterval | sum | difference | product | quotient | remainder =>
    exact .bind (hpair _ _ _) fun _ => .pure _
  case juxtaposition => exact .bind (hexpr 0) fun _ => .bind (hexpr 1) fun _ => .pure _
  case nextArgument => exact .bind (hargs 0) fun _ => .bind (hexpr 2) fun _ => .pure _
  case setInterval =>
    refine .bind (hlexeme 0) fun name => ?_
    split
    · exact .bind (hexpr 2) fun _ => .pure _
    · exact .throw _
  case definition => exact .bind (hargs 2) fun _ => .bind (hexpr 5) fun _ => .bind (hlexeme 0) fun _ => .pure _
  case definitionWithoutParameters => exact .bind (hexpr 4) fun _ => .bind (hlexeme 0) fun _ => .pure _
  case power => exact .bind (hexpr 0) fun _ => .bind (hexpr 2) fun _ => .bind (.ofExcept _) fun _ => .pure _
  case factorial => exact .bind (hexpr 0) fun _ => .bind (.ofExcept _) fun _ => .pure _
  case number | numberBound =>
    exact .bind (p.adds_token 0) fun t => .bind (adds_number t) fun _ => .pure _
  case composition =>
    refine .bind (hlexeme 0) fun name => ?_
    split
    · exact .bind (hexpr 2) fun _ => .pure _
    · exact .throw _
  case limit => exact .bind (hlexeme 3) fun _ => .bind (hexpr 5) fun _ => .bind (hexpr 7) fun _ => .pure _
  case bigSum | bigProduct =>
    refine .bind (.bind (hlexeme 3) fun _ => .bind (hexpr 5) fun _ => .bind (hexpr 8) fun _ => ?_) fun _ => .pure _
    exact .bind (hexpr 9) fun _ => .pure _
  -- the rules that read names
  case identifier => exact .bind (adds_nameOrFunction (hname (by decide)) p) fun _ => .pure _
  case identifierBound => exact .bind (hlexeme 0) fun _ => .bind (hname (by decide) _ _) fun _ => .pure _
  case numberSubscript | nameSubscript =>
    exact .bind (hlexeme 0) fun _ => .bind (hlexeme 2) fun _ => .bind (hname (by decide) _ _) fun _ => .pure _
  case call =>
    exact .bind (hargs 2) fun _ => .bind (hlexeme 0) fun _ =>
      .bind (adds_call (hname (by decide)) _ _ _) fun _ => .pure _
  case callWithoutArguments =>
    exact .bind (hlexeme 0) fun _ => .bind (adds_call (hname (by decide)) _ _ _) fun _ => .pure _
  case numberSubscriptCall | nameSubscriptCall =>
    exact .bind (hargs 4) fun _ => .bind (hlexeme 0) fun _ => .bind (p.adds_token 2) fun _ =>
      .bind (adds_call (hname (by decide)) _ _ _) fun _ => .pure _
  -- one tree is handed on, or stands in a node
  all_goals exact .bind (hexpr _) fun _ => .pure _

theorem adds_reduce (atEnd : Span) (number : Nat) (stack : List Token) :
    Adds True (s.reduce atEnd number stack) := by
  unfold reduce
  split
  · exact .throw _
  · dsimp only
    split
    · exact .throw _
    · refine .bind (fun names => ⟨(adds_build _ _ names).1, fun h => absurd trivial h⟩) fun _ => .pure _

end Setting

end

/-! ## The variables of a phrase -/

/-- The lexeme of a name is not empty, and what stands in the text carries no trees. -/
structure Token.IsPlain (t : Token) : Prop where
  lexeme : t.symbol = .identifier → t.lexeme ≠ ""
  payload : t.symbol.isTerminal = true → t.payload = .nothing

namespace Rule

/-- The places of the trees in a right-hand side. -/
def Form.places (f : Form) : List Nat := f.rhs.findIdxs (!·.isTerminal)

theorem places_handing : ∀ x ∈ handing, ∀ f ∈ table, f.rule = x.1 → f.places = [x.2] := by decide

theorem places_relations : ∀ x ∈ relations, ∀ f ∈ table, f.rule = x.1 → f.places = [0, x.2.2] := by decide

theorem places_intervals : ∀ x ∈ intervals, ∀ f ∈ table, f.rule = x.1 → f.places = [1, 3] := by decide

theorem places_operations : ∀ x ∈ operations, ∀ f ∈ table, f.rule = x.1 → f.places = [0, x.2.2] := by decide

theorem places_bigOperators : ∀ x ∈ bigOperators, ∀ f ∈ table, f.rule = x.1 → f.places = [5, 8, 9] := by decide

/-- The rules that are alone with their form, with the places of their trees. -/
def single : List (Rule × List Nat) :=
  [(.setInterval, [2]), (.definition, [2, 5]), (.definitionWithoutParameters, [4]), (.firstArgument, [0]),
    (.nextArgument, [0, 2]), (.plusGroup, [1]), (.plusUnary, [1]), (.minusGroup, [1]), (.minusUnary, [1]),
    (.power, [0, 2]), (.factorial, [0]), (.number, []), (.numberBound, []), (.bars, [1]), (.identifier, []),
    (.identifierBound, []), (.numberSubscript, []), (.nameSubscript, []), (.call, [2]), (.callWithoutArguments, []),
    (.numberSubscriptCall, [4]), (.nameSubscriptCall, [4]), (.composition, [2]), (.limit, [5, 7])]

/-- A rule that reads names begins with one. -/
theorem naming_name : ∀ f ∈ table, f.rule ∈ naming → f.rhs[0]? = some .identifier := by decide

/-- A subscript in front of arguments is a number or a name. -/
theorem subscript_symbol : ∀ f ∈ table, f.rule = .numberSubscriptCall ∨ f.rule = .nameSubscriptCall →
    f.rhs[2]? = some .number ∨ f.rhs[2]? = some .identifier := by decide

theorem places_single : ∀ x ∈ single, ∀ f ∈ table, f.rule = x.1 → f.places = x.2 := by decide

end Rule

/-- What a function gives at the places of some members of a list, if it gives nothing at the others. -/
theorem flatMap_findIdxs {α β : Type} {q : α → Bool} {g : α → List β} {f : Nat → List β} {xs : List α} {k : Nat}
    (hq : ∀ x ∈ xs, q x = false → g x = []) (hf : ∀ i x, xs[i]? = some x → f (i + k) = g x) :
    (xs.findIdxs q k).flatMap f = xs.flatMap g := by
  induction xs generalizing k with
  | nil => rfl
  | cons x xs ih =>
    have hhead : f k = g x := by simpa using hf 0 x rfl
    have hrest := ih (k := k + 1) (fun y hy => hq y (List.mem_cons_of_mem _ hy)) fun i y hi => by
      rw [← hf (i + 1) y hi, Nat.add_right_comm, Nat.add_assoc]
    rw [List.findIdxs_cons, List.flatMap_cons]
    split
    · rw [List.flatMap_cons, hhead, hrest]
    · rw [hrest, hq x List.mem_cons_self (Bool.eq_false_iff.mpr ‹_›), List.nil_append]

namespace Phrase

variable {p : Phrase}

/-- The variables of the trees in a phrase. -/
def variableNames (p : Phrase) : List String := p.tokens.flatMap Token.variableNames

/-- The variables of the tree at a place. -/
def namesAt (p : Phrase) (place : Nat) : List String := (p.tokens[place]?.map Token.variableNames).getD []

theorem namesAt_of_tree {i : Nat} {e : Expr} (h : p.Tree i e) : p.namesAt i = e.variableNames := by
  obtain ⟨t, ht, hp⟩ := h
  rw [namesAt, ht, Option.map_some, Option.getD_some, Token.variableNames, hp]
  rfl

theorem namesAt_of_trees {i : Nat} {es : List Expr} (h : p.Trees i es) :
    p.namesAt i = Expr.variableNamesOf es := by
  obtain ⟨t, ht, hp⟩ := h
  rw [namesAt, ht, Option.map_some, Option.getD_some, Token.variableNames, hp]
  rfl

/-- The variables of a phrase are those at the places of trees. -/
theorem variableNames_eq {f : Rule.Form} (hsymbols : p.tokens.map (·.symbol) = f.rhs)
    (hp : ∀ t ∈ p.tokens, t.IsPlain) : p.variableNames = f.places.flatMap p.namesAt := by
  have hplaces : f.places = p.tokens.findIdxs (fun t => !t.symbol.isTerminal) := by
    rw [Rule.Form.places, ← hsymbols, List.findIdxs_map]
    rfl
  rw [hplaces, variableNames]
  refine (flatMap_findIdxs (fun t ht hq => ?_) fun i t hi => ?_).symm
  · rw [Token.variableNames, (hp t ht).payload (by simpa using hq)]
    rfl
  · rw [namesAt, Nat.add_zero, hi]
    rfl

end Phrase

/-! ## What is written down -/

/-- The list has grown by names that, with those that were there, are the ones now there. -/
def Logged (before after had have' : List String) : Prop :=
  ∃ met, after = before ++ met ∧ have'.Perm (had ++ met)

namespace Setting

variable {s : Setting}

/-- What is read for an identifier are variables and constants. -/
theorem variableNames_letter (name : String) (subscript : Option String) :
    (s.letter name subscript).variableNames = (variableName? (s.letter name subscript)).toList := by
  unfold letter
  split
  · rfl
  · split <;> rfl

theorem variableNamesOf_letters (name : String) (subscript : Option String) :
    Expr.variableNamesOf (s.letters name subscript) = (s.letters name subscript).filterMap variableName? := by
  have hmap : ∀ es : List Expr, (∀ e ∈ es, e.variableNames = (variableName? e).toList) →
      Expr.variableNamesOf es = es.filterMap variableName? := by
    intro es
    induction es with
    | nil => exact fun _ => rfl
    | cons e es ih =>
      intro h
      rw [Expr.variableNamesOf, ih fun e he => h e (List.mem_cons_of_mem _ he), h e List.mem_cons_self,
        List.filterMap_cons]
      cases variableName? e <;> rfl
  refine hmap _ fun e he => ?_
  unfold letters at he
  split at he
  · obtain rfl := List.mem_singleton.mp he
    exact variableNames_letter _ _
  · dsimp only at he
    split at he
    · cases he
    · rcases List.mem_append.mp he with he | he
      · obtain ⟨w, -, rfl⟩ := List.mem_map.mp he
        exact variableNames_letter _ _
      · obtain rfl := List.mem_singleton.mp he
        exact variableNames_letter _ _

theorem letters_ne_nil {name : String} (h : name ≠ "") (subscript : Option String) : s.letters name subscript ≠ [] := by
  unfold letters
  split
  · exact List.cons_ne_nil _ _
  · dsimp only
    split
    · rename_i hnil
      rw [List.reverse_eq_nil_iff, List.map_eq_nil_iff, String.toList_eq_nil_iff] at hnil
      exact absurd hnil h
    · exact List.append_ne_nil_of_right_ne_nil _ (List.cons_ne_nil _ _)

theorem variableNames_foldl_mul (es : List Expr) (a : Expr) :
    (es.foldl (.binary .mul) a).variableNames = a.variableNames ++ Expr.variableNamesOf es := by
  induction es generalizing a with
  | nil => exact (List.append_nil _).symm
  | cons e es ih => rw [List.foldl_cons, ih, Expr.variableNames, Expr.variableNamesOf, List.append_assoc]

/-- Reading a name writes down the variables of what it is read as. -/
theorem identifier_adds {name : String} (h : name ≠ "") (subscript : Option String) (names : List String) :
    s.identifier name subscript names =
      (.ok (s.resolve name subscript), names ++ (s.resolve name subscript).variableNames) := by
  have hnames : (s.resolve name subscript).variableNames = (s.letters name subscript).filterMap variableName? := by
    rw [← variableNamesOf_letters, resolve]
    obtain ⟨e, es, hes⟩ := List.exists_cons_of_ne_nil (letters_ne_nil h subscript)
    rw [hes]
    exact variableNames_foldl_mul es e
  rw [hnames]
  rfl

theorem leadingArgument_adds {t : Token} (ht : t.symbol ≠ .number → t.lexeme ≠ "") {names names' : List String}
    {e : Expr} (h : s.leadingArgument t names = (.ok e, names')) : names' = names ++ e.variableNames := by
  rw [leadingArgument_eq] at h
  split at h
  · obtain ⟨⟨_, _, _, rfl⟩, rfl⟩ := number_eq_ok.mp h
    exact (List.append_nil _).symm
  · rw [identifier_adds (ht ‹_›)] at h
    cases h
    rfl

/-- A name with arguments behind it: what is written down stands in front of the variables of the arguments. -/
theorem call_adds {name : String} (hname : name ≠ "") {subscript : Option Token}
    (hsubscript : ∀ t, subscript = some t → t.symbol ≠ .number → t.lexeme ≠ "") {args : List Expr}
    {names names' : List String} {e : Expr} (h : s.call name subscript args names = (.ok e, names')) :
    ∃ met, names' = names ++ met ∧ e.variableNames = met ++ Expr.variableNamesOf args := by
  unfold call at h
  cases hf : s.catalog.function? name with
  | some f =>
    rw [hf] at h
    cases subscript with
    | none =>
      obtain ⟨_, _, hargs, h⟩ := Build.bind_eq_ok.mp h
      obtain ⟨rfl, rfl⟩ := Build.pure_eq_ok.mp hargs
      cases hc : f.checkArity args.length with
      | error => simp only [hc, Build.throw_eq_ok] at h
      | ok =>
        simp only [hc] at h
        obtain ⟨rfl, rfl⟩ := Build.pure_eq_ok.mp h
        exact ⟨[], (List.append_nil _).symm, rfl⟩
    | some t =>
      obtain ⟨lead, _, hlead, h⟩ := Build.bind_eq_ok.mp h
      obtain ⟨_, _, hargs, h⟩ := Build.bind_eq_ok.mp h
      obtain ⟨rfl, rfl⟩ := Build.pure_eq_ok.mp hargs
      cases hc : f.checkArity (lead :: args).length with
      | error => simp only [hc, Build.throw_eq_ok] at h
      | ok =>
        simp only [hc] at h
        obtain ⟨rfl, rfl⟩ := Build.pure_eq_ok.mp h
        exact ⟨lead.variableNames, leadingArgument_adds (hsubscript t rfl) hlead, rfl⟩
  | none =>
    rw [hf] at h
    rcases args with _ | ⟨arg, _ | ⟨_, _⟩⟩
    · cases h
    · obtain ⟨factor, _, hfactor, h⟩ := Build.bind_eq_ok.mp h
      obtain ⟨rfl, rfl⟩ := Build.pure_eq_ok.mp h
      rw [identifier_adds hname] at hfactor
      cases hfactor
      exact ⟨_, rfl, by rw [Expr.variableNamesOf_singleton]; rfl⟩
    · cases h

/-- A call in a phrase: the arguments were in the phrase already. -/
theorem logged_call {p : Phrase} {name : String} (hname : name ≠ "") {subscript : Option Token}
    (hsubscript : ∀ t, subscript = some t → t.symbol ≠ .number → t.lexeme ≠ "") {args : List Expr}
    (hargs : p.variableNames = Expr.variableNamesOf args) {names names' : List String} {e : Expr}
    (h : s.call name subscript args names = (.ok e, names')) :
    Logged names names' p.variableNames e.variableNames := by
  obtain ⟨met, hmet, he⟩ := call_adds hname hsubscript h
  exact ⟨met, hmet, by rw [he, hargs]; exact List.perm_append_comm⟩

/-- A name in a phrase without trees. -/
theorem logged_identifier {p : Phrase} {name : String} (hname : name ≠ "") {subscript : Option String}
    (hp : p.variableNames = []) {names names' : List String} {e : Expr}
    (h : s.identifier name subscript names = (.ok e, names')) :
    Logged names names' p.variableNames e.variableNames := by
  rw [identifier_adds hname] at h
  cases h
  exact ⟨_, rfl, by rw [hp, List.nil_append]⟩

/-- A name that may stand for a function. -/
theorem logged_nameOrFunction {p : Phrase} (hname : ∀ {name}, p.Text 0 name → name ≠ "") (hp : p.variableNames = [])
    {names names' : List String} {e : Expr} (h : s.nameOrFunction p names = (.ok e, names')) :
    Logged names names' p.variableNames e.variableNames := by
  obtain ⟨name, _, hn, -⟩ := Build.bind_eq_ok.mp h
  obtain ⟨⟨t, ht, rfl⟩, -⟩ := Phrase.lexeme_eq_ok.mp hn
  have hne := hname ⟨t, ht, rfl⟩
  rw [nameOrFunction_eq ht] at h
  split at h
  · cases hf : s.catalog.function? t.lexeme with
    | some f =>
      rw [hf] at h
      obtain ⟨rfl, rfl⟩ := Build.pure_eq_ok.mp h
      exact ⟨[], (List.append_nil _).symm, by rw [hp]; rfl⟩
    | none =>
      rw [hf] at h
      exact logged_identifier hne hp h
  · exact logged_identifier hne hp h

/-- A name at a place of a phrase is not empty. -/
theorem ne_empty_of_text {p : Phrase} {rhs : List Symbol} (hsymbols : p.tokens.map (·.symbol) = rhs)
    (hp : ∀ t ∈ p.tokens, t.IsPlain) {i : Nat} {name : String} (hn : p.Text i name)
    (hi : rhs[i]? = some .identifier) : name ≠ "" := by
  obtain ⟨t, ht, rfl⟩ := hn
  have hsymbol : t.symbol = .identifier := by
    rw [← hsymbols, List.getElem?_map, ht] at hi
    exact Option.some.inj hi
  exact (hp t (List.mem_of_getElem? ht)).lexeme hsymbol

/-- A subscript that is no number is a name. -/
theorem ne_empty_of_subscript {p : Phrase} {rhs : List Symbol} (hsymbols : p.tokens.map (·.symbol) = rhs)
    (hp : ∀ t ∈ p.tokens, t.IsPlain) {i : Nat} {t : Token} (ht : p.tokens[i]? = some t)
    (hi : rhs[i]? = some .number ∨ rhs[i]? = some .identifier) (hnumber : t.symbol ≠ .number) : t.lexeme ≠ "" := by
  refine ne_empty_of_text hsymbols hp ⟨t, ht, rfl⟩ (hi.resolve_left fun hi => hnumber ?_)
  rw [← hsymbols, List.getElem?_map, ht] at hi
  exact Option.some.inj hi

section

variable {f : Rule.Form} {p : Phrase} {r : Rule} {payload : Payload} {names names' : List String}
  (hf : f ∈ Rule.table) (hr : f.rule = r) (hsymbols : p.tokens.map (·.symbol) = f.rhs)
  (hp : ∀ t ∈ p.tokens, t.IsPlain)

include hf hr hsymbols hp

/-- What a rule makes that reads no names has the variables of its phrase. -/
theorem Makes.variableNames (hnaming : r ∉ Rule.naming) (h : s.Makes p r payload) :
    payload.variableNames = p.variableNames := by
  have hnames := p.variableNames_eq hsymbols hp
  have hsingle := fun x hx hrx => Rule.places_single x hx f hf hrx
  cases h with
  | hand hx he =>
    rw [hnames, Rule.places_handing _ hx f hf hr]
    simp [Payload.variableNames, Phrase.namesAt_of_tree he]
  | relation hx ha hb =>
    rw [hnames, Rule.places_relations _ hx f hf hr]
    simp [Payload.variableNames, Expr.variableNames, Phrase.namesAt_of_tree ha, Phrase.namesAt_of_tree hb]
  | interval hx ha hb =>
    rw [hnames, Rule.places_intervals _ hx f hf hr]
    simp [Payload.variableNames, Expr.variableNames, Phrase.namesAt_of_tree ha, Phrase.namesAt_of_tree hb]
  | operation hx ha hb =>
    rw [hnames, Rule.places_operations _ hx f hf hr]
    simp [Payload.variableNames, Expr.variableNames, Phrase.namesAt_of_tree ha, Phrase.namesAt_of_tree hb]
  | big hx _ ha hb hc =>
    rw [hnames, Rule.places_bigOperators _ hx f hf hr]
    simp [Payload.variableNames, Expr.variableNames, Phrase.namesAt_of_tree ha, Phrase.namesAt_of_tree hb,
      Phrase.namesAt_of_tree hc]
  | definition _ hps hb =>
    rw [hnames, hsingle (.definition, [2, 5]) (by decide) hr]
    simp [Payload.variableNames, Expr.variableNames, Phrase.namesAt_of_trees hps, Phrase.namesAt_of_tree hb]
  | nextArgument hs he =>
    rw [hnames, hsingle (.nextArgument, [0, 2]) (by decide) hr]
    simp [Payload.variableNames, Expr.variableNamesOf_append, Expr.variableNamesOf_singleton,
      Phrase.namesAt_of_trees hs, Phrase.namesAt_of_tree he]
  | power ha hb =>
    rw [hnames, hsingle (.power, [0, 2]) (by decide) hr]
    simp [Payload.variableNames, Expr.variableNames, Phrase.namesAt_of_tree ha, Phrase.namesAt_of_tree hb]
  | limit _ ha hb =>
    rw [hnames, hsingle (.limit, [5, 7]) (by decide) hr]
    simp [Payload.variableNames, Expr.variableNames, Phrase.namesAt_of_tree ha, Phrase.namesAt_of_tree hb]
  | setInterval _ _ he =>
    rw [hnames, hsingle (.setInterval, [2]) (by decide) hr]
    simp [Payload.variableNames, Expr.variableNames, Phrase.namesAt_of_tree he]
  | definitionWithoutParameters _ he =>
    rw [hnames, hsingle (.definitionWithoutParameters, [4]) (by decide) hr]
    simp [Payload.variableNames, Expr.variableNames, Expr.variableNamesOf, Phrase.namesAt_of_tree he]
  | firstArgument he =>
    rw [hnames, hsingle (.firstArgument, [0]) (by decide) hr]
    simp [Payload.variableNames, Expr.variableNamesOf_singleton, Phrase.namesAt_of_tree he]
  | factorial he =>
    rw [hnames, hsingle (.factorial, [0]) (by decide) hr]
    simp [Payload.variableNames, Expr.variableNames, Phrase.namesAt_of_tree he]
  | bars he =>
    rw [hnames, hsingle (.bars, [1]) (by decide) hr]
    simp [Payload.variableNames, Expr.variableNames, Phrase.namesAt_of_tree he]
  | composition _ _ he =>
    rw [hnames, hsingle (.composition, [2]) (by decide) hr]
    simp [Payload.variableNames, Expr.variableNames, Phrase.namesAt_of_tree he]
  | pos hx he | neg hx he =>
    rcases hx with rfl | rfl
    all_goals
      rw [hnames, hsingle (_, [1]) (by decide) hr]
      simp [Payload.variableNames, Expr.variableNames, Phrase.namesAt_of_tree he]
  | number hx _ he =>
    obtain ⟨_, _, _, rfl⟩ := he
    rcases hx with rfl | rfl
    · rw [hnames, hsingle (.number, []) (by decide) hr]
      rfl
    · rw [hnames, hsingle (.numberBound, []) (by decide) hr]
      rfl
  | function => exact absurd (by decide) hnaming
  | call | callWithoutArguments => exact absurd (by decide) hnaming
  | identifier hx | subscript hx | subscriptCall hx => rcases hx with rfl | rfl <;> exact absurd (by decide) hnaming

/-- What a rule writes down are the variables that it makes. -/
theorem logged_build (h : s.build p r names = (.ok payload, names')) :
    Logged names names' p.variableNames payload.variableNames := by
  by_cases hnaming : r ∈ Rule.naming
  · have hnames := p.variableNames_eq hsymbols hp
    have hsingle := fun x hx hrx => Rule.places_single x hx f hf hrx
    have hname : ∀ {name}, p.Text 0 name → name ≠ "" := fun hn =>
      ne_empty_of_text hsymbols hp hn (Rule.naming_name f hf (hr ▸ hnaming))
    simp only [Rule.naming, List.mem_cons, List.not_mem_nil, or_false] at hnaming
    rcases hnaming with rfl | rfl | rfl | rfl | rfl | rfl | rfl | rfl <;>
      simp only [build, Build.bind_eq_ok, Build.pure_eq_ok, Phrase.lexeme_eq_ok, Phrase.args_eq_ok,
        Phrase.token_eq_ok] at h
    · rw [hsingle (.identifier, []) (by decide) hr] at hnames
      obtain ⟨e, _, he, rfl, rfl⟩ := h
      exact logged_nameOrFunction hname hnames he
    · rw [hsingle (.identifierBound, []) (by decide) hr] at hnames
      obtain ⟨name, _, ⟨hn, rfl⟩, e, _, he, rfl, rfl⟩ := h
      exact logged_identifier (hname hn) hnames he
    iterate 2
      rw [hsingle (_, []) (by decide) hr] at hnames
      obtain ⟨name, _, ⟨hn, rfl⟩, sub, _, ⟨-, rfl⟩, e, _, he, rfl, rfl⟩ := h
      exact logged_identifier (hname hn) hnames he
    · rw [hsingle (.call, [2]) (by decide) hr] at hnames
      obtain ⟨args, _, ⟨ha, rfl⟩, name, _, ⟨hn, rfl⟩, e, _, he, rfl, rfl⟩ := h
      refine logged_call (hname hn) (by simp) ?_ he
      rw [hnames, List.flatMap_singleton, Phrase.namesAt_of_trees ha]
    · rw [hsingle (.callWithoutArguments, []) (by decide) hr] at hnames
      obtain ⟨name, _, ⟨hn, rfl⟩, e, _, he, rfl, rfl⟩ := h
      exact logged_call (hname hn) (by simp) hnames he
    iterate 2
      rw [hsingle (_, [4]) (by decide) hr] at hnames
      obtain ⟨args, _, ⟨ha, rfl⟩, name, _, ⟨hn, rfl⟩, sub, _, ⟨hs, rfl⟩, e, _, he, rfl, rfl⟩ := h
      have hsubscript := Rule.subscript_symbol f hf (by rw [hr]; decide)
      refine logged_call (hname hn) (fun t ht => ?_) ?_ he
      · cases ht
        exact ne_empty_of_subscript hsymbols hp hs hsubscript
      · rw [hnames, List.flatMap_singleton, Phrase.namesAt_of_trees ha]
  · have hsilent := (adds_build (s := s) p r names).2 hnaming
    rw [h] at hsilent
    obtain rfl : names' = names := hsilent
    refine ⟨[], (List.append_nil _).symm, ?_⟩
    rw [(Makes.of_build h).variableNames hf hr hsymbols hp hnaming, List.append_nil]

end

/-- Every answer of the parser's language only adds to the list. -/
theorem semantics_adds (s : Setting) (stop : Position) : (s.semantics stop).Follows (· <+: ·) where
  refl := List.prefix_refl
  trans := List.IsPrefix.trans
  choose _ _ _ _ memo := List.prefix_refl memo
  reduce number _ stack memo := (adds_reduce _ number stack memo).1


/-! ## Whole texts -/

/-- What was written down since are the variables of the trees on the stack. -/
def Matched (before : List String) (stack : List Token) (names : List String) : Prop :=
  Logged before names [] (stack.flatMap Token.variableNames)

theorem handsOn_isPlain : s.HandsOn Token.IsPlain := by
  intro f phrase below payload span hf _ _ _
  have hlhs : ∀ f ∈ Rule.table, f.lhs ≠ .identifier ∧ f.lhs.isTerminal = false := by decide
  exact ⟨fun h => absurd h (hlhs f hf).1, fun h => by rw [(hlhs f hf).2] at h; cases h⟩

open scoped List in
/-- The parser keeps the list matched by its stack. -/
theorem keeps_matched (s : Setting) (stop : Position) (before : List String) :
    (s.semantics stop).Keeps Rule.grammar Token.IsPlain (Matched before) where
  shift {token stack names} hterminal hplain h := by
    have hpayload := hplain.payload (decide_eq_true hterminal)
    rw [Matched, List.flatMap_cons, Token.variableNames, hpayload]
    exact h
  reduce {number p next phrase below token names names'} hproduction hphrase hplain hreduce h := by
    obtain ⟨f, hf, -, -, hsymbols, payload, hbuild, rfl⟩ := build_of_reduce hproduction hphrase hreduce
    obtain ⟨met', rfl, hmade⟩ := logged_build (p := ⟨phrase, _⟩) hf rfl hsymbols hplain hbuild
    obtain ⟨met, rfl, hstack⟩ := h
    refine ⟨met ++ met', List.append_assoc _ _ _, ?_⟩
    rw [List.flatMap_append] at hstack
    have hreverse : (phrase.reverse.flatMap Token.variableNames).Perm (phrase.flatMap Token.variableNames) :=
      (List.reverse_perm phrase).flatMap_right _
    -- the variables of the phrase, what is written down, and those below
    calc payload.variableNames ++ below.flatMap Token.variableNames
      _ ~ (phrase.flatMap Token.variableNames ++ met') ++ below.flatMap Token.variableNames := hmade.append_right _
      _ ~ (phrase.flatMap Token.variableNames ++ below.flatMap Token.variableNames) ++ met' := by
        rw [List.append_assoc, List.append_assoc]
        exact List.perm_append_comm.append_left _
      _ ~ met ++ met' := ((hreverse.symm.append_right _).trans hstack).append_right _

theorem isPlain_of_tokenize {text : String} (h : (tokenize text).failure = none) :
    ∀ t ∈ (tokenize text).tokens, t.IsPlain := by
  obtain ⟨-, ⟨words, hscan, hlaid, -⟩ | ⟨_, _, _, _, -, hscan, -⟩⟩ := tokenize_covers text
  · intro t ht
    have hpayload : t.payload = .nothing := Lexer.payload_scan ht
    refine ⟨fun hsymbol => ?_, fun _ => hpayload⟩
    rw [hscan] at ht
    rcases List.mem_append.mp ht with ht | ht
    · exact hlaid.lexeme_ne_empty t ht
    · obtain rfl := List.mem_singleton.mp ht
      cases hsymbol
  · rw [hscan] at h
    cases h

/-- Parses a text with the variables met before. An error among its tokens leaves them as they are. -/
def parseAfter (s : Setting) (goal : Goal) (text : String) (names : List String) : Parsed :=
  match (tokenize text).failure with
  | some e => ⟨.error e, names⟩
  | none => s.parseTokens goal (tokenize text).tokens names

/-- By itself, a text is parsed with no variables met before. -/
theorem parse_eq_parseAfter (s : Setting) (goal : Goal) (text : String) :
    s.parse goal text = s.parseAfter goal text [] := rfl

theorem parseTokens_variableNames {s : Setting} {goal : Goal} {tokens : List Token}
    (htokens : ∀ t ∈ tokens, t.IsPlain) {names : List String} {e : Expr}
    (h : (s.parseTokens goal tokens names).result = .ok e) :
    ∃ met, (s.parseTokens goal tokens names).variableNames = names ++ met ∧ met.Perm e.variableNames := by
  obtain ⟨token, a, hrun, ha, rfl⟩ := parseTokens_eq_ok.mp h
  have hdecides : (s.semantics (stopOf tokens)).Decides := fun _ _ _ _ _ => ⟨_, rfl⟩
  have hend : ∀ t ∈ Token.finish (stopOf tokens) :: tokens, t.IsPlain :=
    List.forall_mem_cons.mpr ⟨⟨nofun, fun _ => rfl⟩, htokens⟩
  obtain ⟨met, hmet, hperm⟩ := LR.run_keeps Rule.augmented (s.lawful _) hdecides (keeps_matched s _ names)
    (handsOn_isPlain.semantics _) (fun t _ => t.symbol.index_lt) hend ⟨[], (List.append_nil _).symm, .refl _⟩ hrun
  refine ⟨met, hmet, ?_⟩
  rw [List.flatMap_singleton, Token.variableNames, ha] at hperm
  rw [Expr.variableNames_classify]
  exact hperm.symm

/-- A parse only adds to the variables met before, also when it fails; and if it succeeds, what it has added are the
variables of the tree, each as often as it stands there. -/
theorem parseAfter_variableNames (s : Setting) (goal : Goal) (text : String) (names : List String) :
    ∃ met, (s.parseAfter goal text names).variableNames = names ++ met ∧
      ∀ e, (s.parseAfter goal text names).result = .ok e → met.Perm e.variableNames := by
  unfold parseAfter
  cases hfailure : (tokenize text).failure with
  | some error => exact ⟨[], (List.append_nil _).symm, fun e h => nomatch h⟩
  | none =>
    dsimp only
    cases h : (s.parseTokens goal (tokenize text).tokens names).result with
    | ok e =>
      obtain ⟨met, hmet, hperm⟩ := parseTokens_variableNames (isPlain_of_tokenize hfailure) h
      exact ⟨met, hmet, fun _ he => by cases he; exact hperm⟩
    | error error =>
      obtain ⟨met, hmet⟩ : names <+: (s.parseTokens goal (tokenize text).tokens names).variableNames :=
        LR.run_follows (semantics_adds s _) _ _ _ _
      exact ⟨met, hmet.symm, fun e he => nomatch he⟩

/-- The factor in front of an argument is written down behind the variables of the argument, and stands before them in
the tree. -/
theorem parseAfter_factor :
    let parsed := parseAfter {} .equation "a(xb)" ["q"]
    ∃ e, parsed.result = .ok e ∧ e.variableNames = ["a", "x", "b"] ∧ parsed.variableNames = ["q", "x", "b", "a"] ∧
      ∃ met, parsed.variableNames = ["q"] ++ met ∧ met.Perm e.variableNames := by
  intro parsed
  have h : parsed.result.toOption.map Expr.variableNames = some ["a", "x", "b"] ∧
      parsed.variableNames = ["q", "x", "b", "a"] := by decide +kernel
  obtain ⟨e, he, hnames⟩ := Option.map_eq_some_iff.mp h.1
  have he : parsed.result = .ok e := by
    cases hr : parsed.result with
    | error => simp [hr, Except.toOption] at he
    | ok a => simpa [hr, Except.toOption] using he
  obtain ⟨met, hmet, hperm⟩ := parseAfter_variableNames {} .equation "a(xb)" ["q"]
  exact ⟨e, he, hnames, h.2, met, hmet, hperm e he⟩

end Setting

end Formula
