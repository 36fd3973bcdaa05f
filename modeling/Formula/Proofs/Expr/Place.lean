import Formula.Expr.Parse
import Formula.Proofs.Expr.Lexemes

/-!
# Where operands begin

The states of the parser in which an operand may begin, named by what stands in front of it: nothing, a bracket, a
bar, a comma, an operator, a sign, a relation, or a part of a binder or a definition (`Place`). A place asks for a
level, the least one that an operand has to have there; in the same way a token asks for a level of what stands in
front of it (`Symbol.floor?`). What the tables do at these places is computed once (`chart`) and then stated cell by
cell.
-/

namespace Formula

open LR (Action)

/-! ## Cells -/

namespace Rule

/-- In the state `n` a token is shifted, and the state `m` follows. -/
abbrev Shifts (n : Nat) (x : Symbol) (m : Nat) : Prop := tables.lookup n x.index = .shift m

/-- In the state `n` a nonterminal leads to the state `m`. -/
abbrev Gotos (n : Nat) (x : Symbol) (m : Nat) : Prop := tables.lookup n x.index = .goto m

/-- The production that is reduced by in front of a token. In front of a bar it may be one side of an open
choice. -/
def reduction? (t : LR.Tables) (n : Nat) (x : Symbol) : Option Nat :=
  match t.lookup n x.index with
  | .reduce production => some production
  | .ambiguous choice =>
    match x, (t.choice choice).2 with
    | .bar, .reduce production => some production
    | _, _ => none
  | _ => none

theorem reduction?_eq_some {t : LR.Tables} {n production : Nat} {x : Symbol}
    (h : reduction? t n x = some production) : t.lookup n x.index = .reduce production ∨
      x = .bar ∧ ∃ choice, t.lookup n x.index = .ambiguous choice ∧ (t.choice choice).2 = .reduce production := by
  unfold reduction? at h
  split at h
  · rename_i hl
    cases h
    exact .inl hl
  · rename_i choice hl
    split at h
    · rename_i hc
      cases h
      exact .inr ⟨rfl, choice, hl, hc⟩
    · cases h
  · cases h

/-- In the state `n` a rule is reduced by in front of a token, if a bar closes. -/
abbrev Reduces (n : Nat) (x : Symbol) (r : Rule) : Prop := reduction? tables n x = some r.index

/-- The state behind a symbol. -/
def target (n : Nat) (x : Symbol) : Nat :=
  match tables.lookup n x.index with
  | .shift m => m
  | .goto m => m
  | _ => 0

/-- From the state `n` on, the tokens are shifted one after the other. -/
def ShiftsAll (n : Nat) : List Symbol → Prop
  | [] => True
  | x :: xs => Shifts n x (target n x) ∧ ShiftsAll (target n x) xs

instance decidableShiftsAll (n : Nat) : (xs : List Symbol) → Decidable (ShiftsAll n xs)
  | [] => inferInstanceAs (Decidable True)
  | x :: xs =>
    have := decidableShiftsAll (target n x) xs
    inferInstanceAs (Decidable (_ ∧ _))

end Rule

open Rule (Shifts ShiftsAll Gotos Reduces)

/-- The level that a token asks for: what stands in front of it has at least this level. -/
def Symbol.floor? : Symbol → Option Nat
  | .comma | .bar | .rightParen | .rightBracket | .rightBrace | .finish => some 0
  | .equal | .notEqual | .less | .greater => some 0
  | .plus | .minus => some Rule.sumLevel
  | .times | .divide | .modulo => some Rule.productLevel
  | .power => some (Rule.powerLevel + 1)
  | .factorial => some Rule.factorialLevel
  | _ => none

/-- The token may stand behind an operand of the level. -/
def Symbol.Follows (x : Symbol) (level : Nat) : Prop := ∃ k, x.floor? = some k ∧ k ≤ level

theorem Symbol.Follows.mono {x : Symbol} {level level' : Nat} (h : x.Follows level) (hl : level ≤ level') :
    x.Follows level' := by
  obtain ⟨k, hk, hle⟩ := h
  exact ⟨k, hk, hle.trans hl⟩

/-- The tokens that end a sum or a product, or go on with it. -/
def Symbol.closers : List Symbol :=
  [.comma, .bar, .rightParen, .rightBracket, .rightBrace, .finish, .equal, .notEqual, .less, .greater, .plus, .minus,
    .times, .divide, .modulo]

/-- The tokens that may stand behind an operand. -/
def Symbol.followers : List Symbol := .power :: .factorial :: closers

theorem Symbol.Follows.mem_followers {x : Symbol} {level : Nat} (h : x.Follows level) : x ∈ followers := by
  obtain ⟨k, hk, -⟩ := h
  revert hk
  cases x <;> simp [floor?, followers, closers]

theorem Symbol.Follows.mem_closers {x : Symbol} {level : Nat} (h : x.Follows level)
    (hl : level ≤ Rule.powerLevel) : x ∈ closers := by
  obtain ⟨k, hk, hle⟩ := h
  have hk8 : k ≤ Rule.powerLevel := hle.trans hl
  revert hk hk8
  cases x <;> simp [floor?, closers, Rule.powerLevel, Rule.factorialLevel] <;> omega

/-! ## Places -/

/-- What an operand begins behind. -/
inductive Place where
  | start
  | bar
  /-- A round bracket at the start of the text, where an interval may begin as well. -/
  | firstParen
  | paren
  | call
  | comma
  | operator (op : Operator)
  | plus
  | minus
  | power
  /-- Behind the sign of composition. -/
  | compose
  /-- A square bracket at the start of the text, where an interval may begin as well. -/
  | firstBracket
  /-- The second end of an interval, which began with a square bracket or with a round one. -/
  | endpoint (square : Bool)
  /-- The right side of a relation. -/
  | side (op : Relation)
  | approach
  | limitBody
  | lower (op : BigOperator)
  | upper (op : BigOperator)
  | bigBody (op : BigOperator)
  /-- The first parameter of a definition. -/
  | parameter
  /-- The body of a definition, with parameters or without. -/
  | definitionBody (parameters : Bool)
deriving DecidableEq, Repr

namespace Place

/-- The symbols on a stack that leads to the place. -/
def path : Place → List Symbol
  | start => []
  | bar => [.bar]
  | firstParen => [.leftParen]
  | paren => [.bar, .leftParen]
  | call => [.identifier, .leftParen]
  | comma => [.identifier, .leftParen, .arguments, .comma]
  | operator op => [.expression, op.token]
  | plus => [.plus]
  | minus => [.minus]
  | power => [.group, .power]
  | compose => [.identifier, .compose]
  | firstBracket => [.leftBracket]
  | endpoint square => [if square then .leftBracket else .leftParen, .expression, .comma]
  | side op => .expression :: op.tokens
  | approach => [.limit, .subscript, .leftParen, .identifier, .arrow]
  | limitBody => [.limit, .subscript, .leftParen, .identifier, .arrow, .expression, .rightParen]
  | lower op => [op.token, .subscript, .leftParen, .identifier, .equal]
  | upper op =>
    [op.token, .subscript, .leftParen, .identifier, .equal, .expression, .rightParen, .power, .leftBrace]
  | bigBody op => [op.token, .subscript, .leftParen, .identifier, .equal, .expression, .rightParen, .power, .bound]
  | parameter => [.identifier, .leftParen]
  | definitionBody true => [.identifier, .leftParen, .arguments, .rightParen, .equal]
  | definitionBody false => [.identifier, .leftParen, .rightParen, .equal]

/-- The state that the path begins at: a definition is a goal of its own. -/
def origin : Place → Nat
  | parameter | definitionBody _ => Goal.definition.index
  | _ => Goal.equation.index

/-- The state behind some symbols. -/
def follow (n : Nat) (symbols : List Symbol) : Nat := symbols.foldl Rule.target n

theorem follow_nil (n : Nat) : follow n [] = n := rfl

theorem follow_cons (n : Nat) (x : Symbol) (xs : List Symbol) : follow n (x :: xs) = follow (Rule.target n x) xs := by
  rw [follow, List.foldl_cons, ← follow]

theorem follow_append (n : Nat) (xs ys : List Symbol) : follow n (xs ++ ys) = follow (follow n xs) ys := by
  rw [follow, List.foldl_append, ← follow, ← follow]

/-- The state at the place. -/
def state (p : Place) : Nat := follow p.origin p.path

theorem state_start : start.state = Goal.equation.index := rfl

/-- The state behind some symbols that begin at the place. -/
def after (p : Place) (symbols : List Symbol) : Nat := follow p.state symbols

theorem follow_relation (op : Relation) : follow (start.after [.expression]) op.tokens = (side op).state := by
  rw [after, state, ← follow_append, ← follow_append]
  rfl

theorem follow_equal : follow (parameter.after [.arguments]) [.rightParen, .equal] = (definitionBody true).state ∧
    follow parameter.state [.rightParen, .equal] = (definitionBody false).state := by
  rw [after, state, ← follow_append, ← follow_append, ← follow_append]
  exact ⟨rfl, rfl⟩

/-- The level that the place asks for. -/
def level : Place → Nat
  | operator op => op.level + 1
  | plus | minus => Rule.signLevel
  | power => Rule.powerLevel
  -- the name of a function is no operand of its own
  | compose => Expr.atomLevel + 1
  | limitBody | bigBody _ => Rule.nameLevel
  | _ => 0

/-- The symbol in front of the place. -/
def entry? (p : Place) : Option Symbol := p.path.getLast?

def operators : List Operator := [.add, .sub, .mul, .div, .mod]

theorem mem_operators (op : Operator) : op ∈ operators := by
  cases op <;> decide

def relations : List Relation := [.eq, .ne, .lt, .le, .gt, .ge]

theorem mem_relations (op : Relation) : op ∈ relations := by
  cases op <;> decide

def bigOperators : List BigOperator := [.sum, .product]

theorem mem_bigOperators (op : BigOperator) : op ∈ bigOperators := by
  cases op <;> decide

/-- The places where whole sums and products may stand. -/
def outer : List Place :=
  [.start, .bar, .firstParen, .paren, .call, .comma, .firstBracket, .endpoint true, .endpoint false, .approach,
    .parameter, .definitionBody true, .definitionBody false] ++
    operators.map .operator ++ relations.map .side ++ bigOperators.flatMap fun op => [.lower op, .upper op]

/-- The places where signs may stand. -/
def signed : List Place := .plus :: .minus :: outer

/-- All places. -/
def all : List Place := .power :: .compose :: .limitBody :: (bigOperators.map .bigBody ++ signed)

theorem mem_all (p : Place) : p ∈ all := by
  cases p with
  | operator op => cases op <;> decide
  | side op => cases op <;> decide
  | lower op | upper op | bigBody op => cases op <;> decide
  | endpoint b | definitionBody b => cases b <;> decide
  | _ => decide

theorem mem_signed {p : Place} (h : p.level ≤ Rule.signLevel) : p ∈ signed := by
  have hall : ∀ p ∈ all, p.level ≤ Rule.signLevel → p ∈ signed := by decide
  exact hall p p.mem_all h

theorem mem_outer {p : Place} (h : p.level ≤ Rule.productLevel) : p ∈ outer := by
  have hall : ∀ p ∈ all, p.level ≤ Rule.productLevel → p ∈ outer := by decide
  exact hall p p.mem_all h

/-- No name stands directly in front of an operand, and the sign of composition only in front of what is composed. -/
theorem entry?_ne (p : Place) : p.entry? ≠ some .identifier ∧ (some .compose = p.entry? → p = compose) := by
  have hall : ∀ p ∈ all, p.entry? ≠ some .identifier ∧ (some .compose = p.entry? → p = compose) := by decide
  exact hall p p.mem_all

/-- The place behind a round bracket that begins at the place. -/
def opened : Place → Place
  | start => firstParen
  | _ => paren

theorem opened_mem_outer (p : Place) : p.opened ∈ outer := by
  have hall : ∀ p ∈ all, p.opened ∈ outer := by decide
  exact hall p p.mem_all

/-- The place from which the state behind a name is the same: at the start, a name may also be that of a set. -/
def named : Place → Place
  | start => start
  | _ => bar

end Place

/-! ## What the tables say -/

/-- The rule of an operator. -/
def Operator.rule : Operator → Rule
  | add => .sum
  | sub => .difference
  | mul => .product
  | div => .quotient
  | mod => .remainder

/-- The rule of a relation. -/
def Relation.rule : Relation → Rule
  | eq => .equalTo
  | ne => .unequalTo
  | lt => .lessThan
  | le => .atMost
  | gt => .greaterThan
  | ge => .atLeast

/-- The rule of a big operator. -/
def BigOperator.rule : BigOperator → Rule
  | sum => .bigSum
  | product => .bigProduct

/-- The tokens that what follows a bound begins with. -/
def Symbol.beginners : List Symbol := [.number, .identifier, .leftParen, .bar]

namespace Place.Chart

open Formula.Symbol (followers closers beginners)

/-- Numbers, and names with their subscripts. -/
@[reducible] def names : Prop :=
  (∀ p ∈ all, Shifts p.state .number (bar.after [.number]) ∧
    Shifts p.state .identifier (p.named.after [.identifier])) ∧
  (∀ x ∈ followers, Reduces (bar.after [.number]) x .number ∧
    Reduces (start.after [.identifier]) x .identifier ∧ Reduces (bar.after [.identifier]) x .identifier ∧
    Reduces (bar.after [.identifier, .subscript, .number]) x .numberSubscript ∧
    Reduces (bar.after [.identifier, .subscript, .identifier]) x .nameSubscript) ∧
  (∀ p ∈ [start, bar], Shifts (p.after [.identifier]) .subscript (bar.after [.identifier, .subscript])) ∧
  Shifts (bar.after [.identifier, .subscript]) .number (bar.after [.identifier, .subscript, .number]) ∧
  Shifts (bar.after [.identifier, .subscript]) .identifier (bar.after [.identifier, .subscript, .identifier])

/-- Calls. -/
@[reducible] def calls : Prop :=
  (∀ p ∈ [start, bar], Shifts (p.after [.identifier]) .leftParen call.state) ∧
  Shifts call.state .rightParen (call.after [.rightParen]) ∧
  Shifts (call.after [.arguments]) .rightParen (call.after [.arguments, .rightParen]) ∧
  (∀ x ∈ followers, Reduces (call.after [.rightParen]) x .callWithoutArguments ∧
    Reduces (call.after [.arguments, .rightParen]) x .call) ∧
  (∀ p ∈ [call, parameter], Gotos p.state .arguments (p.after [.arguments]) ∧
    Shifts (p.after [.arguments]) .comma comma.state ∧
    ∀ x ∈ [Symbol.comma, .rightParen], Reduces (p.after [.expression]) x .firstArgument) ∧
  (∀ x ∈ [Symbol.comma, .rightParen], Reduces (comma.after [.expression]) x .nextArgument)

/-- Parentheses and bars. -/
@[reducible] def brackets : Prop :=
  (∀ p ∈ all, Shifts p.state .leftParen p.opened.state ∧ Shifts p.state .bar bar.state) ∧
  (∀ p ∈ [firstParen, paren],
    Shifts (p.after [.expression]) .rightParen (paren.after [.expression, .rightParen])) ∧
  Shifts (bar.after [.expression]) .bar (bar.after [.expression, .bar]) ∧
  (∀ x ∈ followers, Reduces (paren.after [.expression, .rightParen]) x .parentheses ∧
    Reduces (bar.after [.expression, .bar]) x .bars)

/-- Powers, factorials and signs. -/
@[reducible] def groups : Prop :=
  (∀ p ∈ all, Gotos p.state .group (p.after [.group]) ∧
    Shifts (p.after [.group]) .factorial (bar.after [.group, .factorial]) ∧
    Shifts (p.after [.group]) .power power.state) ∧
  (∀ x ∈ followers, Reduces (bar.after [.group, .factorial]) x .factorial) ∧
  (∀ p ∈ signed, Shifts p.state .plus plus.state ∧ Shifts p.state .minus minus.state ∧
    Gotos p.state .unary (p.after [.unary])) ∧
  (∀ x ∈ closers, Reduces (power.after [.group]) x .power ∧
    Reduces (plus.after [.group]) x .plusGroup ∧ Reduces (plus.after [.unary]) x .plusUnary ∧
    Reduces (minus.after [.group]) x .minusGroup ∧ Reduces (minus.after [.unary]) x .minusUnary)

/-- Sums and products. -/
@[reducible] def sums : Prop :=
  (∀ p ∈ outer, Gotos p.state .expression (p.after [.expression]) ∧
    p.after [.group] = bar.after [.group] ∧ p.after [.unary] = bar.after [.unary]) ∧
  (∀ x ∈ closers, Reduces (bar.after [.group]) x .groupExpression ∧
    Reduces (bar.after [.unary]) x .unaryExpression) ∧
  (∀ p ∈ outer, ∀ op ∈ operators, p.level ≤ op.level →
    Shifts (p.after [.expression]) op.token (operator op).state) ∧
  (∀ op ∈ operators, ∀ x ∈ closers, x.floor?.getD 0 ≤ op.level →
    Reduces ((operator op).after [.expression]) x op.rule)

/-- Compositions. -/
@[reducible] def compositions : Prop :=
  (∀ p ∈ [start, bar], Shifts (p.after [.identifier]) .compose compose.state) ∧
  (∀ x ∈ closers, Reduces (compose.after [.group]) x .composition)

/-- Limits. -/
@[reducible] def limits : Prop :=
  (∀ p ∈ all, ShiftsAll p.state approach.path ∧ p.after approach.path = approach.state) ∧
  Shifts (approach.after [.expression]) .rightParen limitBody.state ∧
  (∀ x ∈ closers, Reduces (limitBody.after [.group]) x .limit)

/-- Big operators. -/
@[reducible] def bigs : Prop :=
  ∀ op ∈ bigOperators,
    (∀ p ∈ all, ShiftsAll p.state (lower op).path ∧ p.after (lower op).path = (lower op).state) ∧
    Shifts ((lower op).after [.expression]) .rightParen ((lower op).after [.expression, .rightParen]) ∧
    Shifts ((lower op).after [.expression, .rightParen]) .power ((lower op).after [.expression, .rightParen, .power]) ∧
    Shifts ((lower op).after [.expression, .rightParen, .power]) .leftBrace (upper op).state ∧
    Shifts ((upper op).after [.expression]) .rightBrace ((upper op).after [.expression, .rightBrace]) ∧
    (∀ x ∈ beginners, Rule.tables.lookup ((upper op).after [.expression, .rightBrace]) x.index =
      .reduce Rule.bracesBound.index) ∧
    Gotos ((lower op).after [.expression, .rightParen, .power]) .bound (bigBody op).state ∧
    (∀ x ∈ closers, Reduces ((bigBody op).after [.group]) x op.rule)

/-- A whole text. -/
@[reducible] def goal : Prop :=
  Reduces (start.after [.expression]) .finish .plain ∧
  Gotos start.state .equation (start.after [.equation]) ∧
  Rule.tables.lookup (start.after [.equation]) Symbol.finish.index = .accept

/-- Relations and intervals. -/
@[reducible] def statements : Prop :=
  (∀ op ∈ relations, ShiftsAll (start.after [.expression]) op.tokens ∧
    Reduces ((side op).after [.expression]) .finish op.rule) ∧
  Shifts start.state .leftBracket firstBracket.state ∧
  (∀ square, Shifts ((if square then firstBracket else firstParen).after [.expression]) .comma (endpoint square).state ∧
    ∀ x ∈ [Symbol.rightBracket, .rightParen],
      Shifts ((endpoint square).after [.expression]) x ((endpoint square).after [.expression, x])) ∧
  Reduces ((endpoint true).after [.expression, .rightBracket]) .finish .closedInterval ∧
  Reduces ((endpoint true).after [.expression, .rightParen]) .finish .rightOpenInterval ∧
  Reduces ((endpoint false).after [.expression, .rightBracket]) .finish .leftOpenInterval ∧
  Reduces ((endpoint false).after [.expression, .rightParen]) .finish .openInterval ∧
  Gotos start.state .interval (start.after [.interval]) ∧
  Reduces (start.after [.interval]) .finish .bareInterval

/-- Definitions. -/
@[reducible] def definitions : Prop :=
  ShiftsAll parameter.origin parameter.path ∧
  ShiftsAll parameter.state [.rightParen, .equal] ∧
  ShiftsAll (parameter.after [.arguments]) [.rightParen, .equal] ∧
  Reduces ((definitionBody true).after [.expression]) .finish .definition ∧
  Reduces ((definitionBody false).after [.expression]) .finish .definitionWithoutParameters ∧
  Gotos parameter.origin .definition (follow parameter.origin [.definition]) ∧
  Rule.tables.lookup (follow parameter.origin [.definition]) Symbol.finish.index = .accept

instance : Decidable names := inferInstance
instance : Decidable calls := inferInstance
instance : Decidable brackets := inferInstance
instance : Decidable groups := inferInstance
instance : Decidable sums := inferInstance
instance : Decidable compositions := inferInstance
instance : Decidable limits := inferInstance
instance : Decidable bigs := inferInstance
instance : Decidable goal := inferInstance
instance : Decidable statements := inferInstance
instance : Decidable definitions := inferInstance

end Place.Chart

namespace Place

-- two evaluations, so that the tables are computed no more often and neither takes too much memory
theorem chart_of_operands : Chart.names ∧ Chart.calls ∧ Chart.brackets ∧ Chart.groups ∧ Chart.sums := by
  decide +kernel

theorem chart_of_texts : (Chart.compositions ∧ Chart.limits ∧ Chart.bigs) ∧ Chart.goal ∧ Chart.statements ∧
    Chart.definitions := by
  decide +kernel

theorem chart_names : Chart.names := chart_of_operands.1

theorem chart_calls : Chart.calls := chart_of_operands.2.1

theorem chart_brackets : Chart.brackets := chart_of_operands.2.2.1

theorem chart_groups : Chart.groups := chart_of_operands.2.2.2.1

theorem chart_sums : Chart.sums := chart_of_operands.2.2.2.2

theorem chart_compositions : Chart.compositions := chart_of_texts.1.1

theorem chart_limits : Chart.limits := chart_of_texts.1.2.1

theorem chart_bigs : Chart.bigs := chart_of_texts.1.2.2

theorem chart_goal : Chart.goal := chart_of_texts.2.1

theorem chart_statements : Chart.statements := chart_of_texts.2.2.1

theorem chart_definitions : Chart.definitions := chart_of_texts.2.2.2

variable (p : Place)

theorem shifts_number : Shifts p.state .number (bar.after [.number]) :=
  (chart_names.1 p p.mem_all).1

theorem shifts_identifier : Shifts p.state .identifier (p.named.after [.identifier]) :=
  (chart_names.1 p p.mem_all).2

theorem gotos_group : Gotos p.state .group (p.after [.group]) :=
  (chart_groups.1 p p.mem_all).1

theorem named_mem : p.named ∈ [start, bar] := by
  cases p <;> simp [named]

end Place

end Formula
