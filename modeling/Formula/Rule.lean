import Formula.LR.Table
import Formula.Symbol

/-!
# The grammar of the notation

The productions of the notation with their precedences, and the parse tables built from them. From the
loosest to the tightest, the levels are: relations; sums; products, quotients and remainders; signs;
identifiers, limits and big operators; factors written next to each other, with the tokens that may start
one; composition; powers; factorials. The bar has no level, since it opens and closes: the choices it
leaves open are settled while parsing.
-/

namespace Formula

/-- The productions by what they stand for, in the order of the table. -/
inductive Rule where
  | start
  | definitionStart
  | plain
  | equalTo
  | unequalTo
  | lessThan
  | greaterThan
  | atMost
  | atLeast
  | bareInterval
  | setInterval
  | definition
  | definitionWithoutParameters
  | closedInterval
  | rightOpenInterval
  | leftOpenInterval
  | openInterval
  | firstArgument
  | nextArgument
  | groupExpression
  | unaryExpression
  | sum
  | difference
  | product
  | quotient
  | remainder
  | plusGroup
  | minusGroup
  | plusUnary
  | minusUnary
  | juxtaposition
  | power
  | factorial
  | number
  | parentheses
  | brackets
  | braces
  | bars
  | identifier
  | numberSubscript
  | nameSubscript
  | call
  | callWithoutArguments
  | numberSubscriptCall
  | nameSubscriptCall
  | composition
  | limit
  | bigSum
  | bigProduct
  | numberBound
  | identifierBound
  | parenthesesBound
  | bracesBound
deriving DecidableEq, Repr, Inhabited

namespace Rule

open Formula.Symbol (equation interval arguments expression unary group bound leftParen rightParen
  leftBracket rightBracket leftBrace rightBrace comma bar subscript)

/-! ## Levels of precedence -/

def relationLevel : Nat := 1
def sumLevel : Nat := 2
def productLevel : Nat := 3
def signLevel : Nat := 4
def nameLevel : Nat := 5
def juxtapositionLevel : Nat := 6
def compositionLevel : Nat := 7
def powerLevel : Nat := 8
def factorialLevel : Nat := 9

/-- The precedence of each token that has one. -/
def precedences : List (Symbol × LR.Prec) :=
  [(.equal, ⟨relationLevel, .none⟩), (.notEqual, ⟨relationLevel, .none⟩),
    (.less, ⟨relationLevel, .none⟩), (.greater, ⟨relationLevel, .none⟩),
    (.plus, ⟨sumLevel, .left⟩), (.minus, ⟨sumLevel, .left⟩),
    (.times, ⟨productLevel, .left⟩), (.divide, ⟨productLevel, .left⟩),
    (.modulo, ⟨productLevel, .left⟩),
    (.number, ⟨juxtapositionLevel, .left⟩), (.identifier, ⟨juxtapositionLevel, .left⟩),
    (.leftParen, ⟨juxtapositionLevel, .left⟩), (.leftBracket, ⟨juxtapositionLevel, .left⟩),
    (.leftBrace, ⟨juxtapositionLevel, .left⟩), (.limit, ⟨juxtapositionLevel, .left⟩),
    (.sum, ⟨juxtapositionLevel, .left⟩), (.product, ⟨juxtapositionLevel, .left⟩),
    (.compose, ⟨compositionLevel, .right⟩), (.power, ⟨powerLevel, .right⟩),
    (.factorial, ⟨factorialLevel, .left⟩)]

def sign : Option LR.Prec := some ⟨signLevel, .right⟩
def name : Option LR.Prec := some ⟨nameLevel, .right⟩
def implicit : Option LR.Prec := some ⟨juxtapositionLevel, .left⟩

/-! ## Productions -/

/-- A production of the notation. -/
structure Form where
  rule : Rule
  lhs : Symbol
  rhs : List Symbol
  prec : Option LR.Prec := none
deriving DecidableEq, Repr

/-- The productions in the order of their numbers. The two goals come first. -/
def table : List Form :=
  [⟨.start, .start, [equation], none⟩,
    ⟨.definitionStart, .definitionStart, [.definition], none⟩,
    ⟨.plain, equation, [expression], none⟩,
    ⟨.equalTo, equation, [expression, .equal, expression], none⟩,
    ⟨.unequalTo, equation, [expression, .notEqual, expression], none⟩,
    ⟨.lessThan, equation, [expression, .less, expression], none⟩,
    ⟨.greaterThan, equation, [expression, .greater, expression], none⟩,
    ⟨.atMost, equation, [expression, .less, .equal, expression], none⟩,
    ⟨.atLeast, equation, [expression, .greater, .equal, expression], none⟩,
    ⟨.bareInterval, equation, [interval], none⟩,
    ⟨.setInterval, equation, [.identifier, bar, interval], none⟩,
    ⟨.definition, .definition,
      [.identifier, leftParen, arguments, rightParen, .equal, expression], none⟩,
    ⟨.definitionWithoutParameters, .definition,
      [.identifier, leftParen, rightParen, .equal, expression], none⟩,
    ⟨.closedInterval, interval, [leftBracket, expression, comma, expression, rightBracket], none⟩,
    ⟨.rightOpenInterval, interval, [leftBracket, expression, comma, expression, rightParen], none⟩,
    ⟨.leftOpenInterval, interval, [leftParen, expression, comma, expression, rightBracket], none⟩,
    ⟨.openInterval, interval, [leftParen, expression, comma, expression, rightParen], none⟩,
    ⟨.firstArgument, arguments, [expression], none⟩,
    ⟨.nextArgument, arguments, [arguments, comma, expression], none⟩,
    ⟨.groupExpression, expression, [group], none⟩,
    ⟨.unaryExpression, expression, [unary], none⟩,
    ⟨.sum, expression, [expression, .plus, expression], none⟩,
    ⟨.difference, expression, [expression, .minus, expression], none⟩,
    ⟨.product, expression, [expression, .times, expression], none⟩,
    ⟨.quotient, expression, [expression, .divide, expression], none⟩,
    ⟨.remainder, expression, [expression, .modulo, expression], none⟩,
    ⟨.plusGroup, unary, [.plus, group], sign⟩,
    ⟨.minusGroup, unary, [.minus, group], sign⟩,
    ⟨.plusUnary, unary, [.plus, unary], sign⟩,
    ⟨.minusUnary, unary, [.minus, unary], sign⟩,
    ⟨.juxtaposition, group, [group, group], implicit⟩,
    ⟨.power, group, [group, .power, group], none⟩,
    ⟨.factorial, group, [group, .factorial], none⟩,
    ⟨.number, group, [.number], none⟩,
    ⟨.parentheses, group, [leftParen, expression, rightParen], none⟩,
    ⟨.brackets, group, [leftBracket, expression, rightBracket], none⟩,
    ⟨.braces, group, [leftBrace, expression, rightBrace], none⟩,
    ⟨.bars, group, [bar, expression, bar], none⟩,
    ⟨.identifier, group, [.identifier], name⟩,
    ⟨.numberSubscript, group, [.identifier, subscript, .number], name⟩,
    ⟨.nameSubscript, group, [.identifier, subscript, .identifier], name⟩,
    ⟨.call, group, [.identifier, leftParen, arguments, rightParen], none⟩,
    ⟨.callWithoutArguments, group, [.identifier, leftParen, rightParen], none⟩,
    ⟨.numberSubscriptCall, group,
      [.identifier, subscript, .number, leftParen, arguments, rightParen], none⟩,
    ⟨.nameSubscriptCall, group,
      [.identifier, subscript, .identifier, leftParen, arguments, rightParen], none⟩,
    ⟨.composition, group, [.identifier, .compose, group], none⟩,
    ⟨.limit, group,
      [.limit, subscript, leftParen, .identifier, .arrow, expression, rightParen, group], name⟩,
    ⟨.bigSum, group,
      [.sum, subscript, leftParen, .identifier, .equal, expression, rightParen, .power, bound, group],
      name⟩,
    ⟨.bigProduct, group,
      [.product, subscript, leftParen, .identifier, .equal, expression, rightParen, .power, bound,
        group], name⟩,
    ⟨.numberBound, bound, [.number], none⟩,
    ⟨.identifierBound, bound, [.identifier], none⟩,
    ⟨.parenthesesBound, bound, [leftParen, expression, rightParen], none⟩,
    ⟨.bracesBound, bound, [leftBrace, expression, rightBrace], none⟩]

/-- The production with a number. -/
def form? (number : Nat) : Option Form := table[number]?

/-- The number of a rule. -/
def index (r : Rule) : Nat := r.ctorIdx

/-- The name of a production: the label of its left-hand side, and, where several productions share it,
the place among them. -/
def Form.label (f : Form) : String :=
  let siblings := (table.filter (·.lhs = f.lhs)).map (·.rule)
  if siblings.length = 1 then f.lhs.label
  else f.lhs.label ++ toString (siblings.idxOf f.rule + 1)

/-! ## Tables -/

/-- The goal of an equation, an inequality, an interval or an expression. -/
def equationGoal : Nat := 0

/-- The goal of a definition. -/
def definitionGoal : Nat := 1

/-- The grammar of the notation. -/
def grammar : LR.Grammar where
  labels := Symbol.all.map Symbol.label
  nonterminals := Symbol.nonterminals
  productions := table.map fun f => ⟨f.lhs.index, f.rhs.map Symbol.index, f.prec⟩
  goals := [index .start, index .definitionStart]
  precedences := precedences.map fun (s, p) => (s.index, p)

/-- The grammar passes all checks. -/
theorem grammar_build : grammar.build = .ok grammar := by
  rfl

/-- The parse tables of the notation. -/
def tables : LR.Tables := LR.Tables.build grammar

end Rule

end Formula
