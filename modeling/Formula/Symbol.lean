/-!
# Symbols of the notation

The symbols that the grammar of the notation is written with: ten nonterminals, then the kinds of tokens,
with the end of the input as the last one. The order of the constructors is the numbering of the symbols in
the parse tables.
-/

namespace Formula

/-- A nonterminal or a kind of token. -/
inductive Symbol where
  | start
  | definitionStart
  | equation
  | definition
  | interval
  | arguments
  | expression
  | unary
  | group
  | bound
  | number
  | identifier
  | plus
  | minus
  | times
  | divide
  | modulo
  | power
  | factorial
  | subscript
  | equal
  | notEqual
  | less
  | greater
  | comma
  | bar
  | leftParen
  | rightParen
  | leftBracket
  | rightBracket
  | leftBrace
  | rightBrace
  | limit
  | sum
  | product
  | arrow
  | compose
  | finish
deriving DecidableEq, Repr, Inhabited

namespace Symbol

/-- All symbols in the order of their numbers. -/
def all : List Symbol :=
  [.start, .definitionStart, .equation, .definition, .interval, .arguments, .expression, .unary, .group,
    .bound, .number, .identifier, .plus, .minus, .times, .divide, .modulo, .power, .factorial,
    .subscript, .equal, .notEqual, .less, .greater, .comma, .bar, .leftParen, .rightParen,
    .leftBracket, .rightBracket, .leftBrace, .rightBrace, .limit, .sum, .product, .arrow, .compose,
    .finish]

/-- The number of a symbol in the parse tables. -/
def index (s : Symbol) : Nat := s.ctorIdx

/-- How many symbols are nonterminals. -/
def nonterminals : Nat := 10

def isTerminal (s : Symbol) : Bool := nonterminals ≤ s.index

/-- The name of a symbol in messages. -/
def label : Symbol → String
  | start => "Start"
  | definitionStart => "DefStart"
  | equation => "Equation"
  | definition => "Definition"
  | interval => "Interval"
  | arguments => "Args"
  | expression => "Expr"
  | unary => "Unary"
  | group => "Group"
  | bound => "Bound"
  | number => "NUMBER"
  | identifier => "IDENT"
  | plus => "ADD"
  | minus => "SUB"
  | times => "MUL"
  | divide => "DIV"
  | modulo => "MOD"
  | power => "POW"
  | factorial => "FAC"
  | subscript => "SUBSCRIPT"
  | equal => "EQ"
  | notEqual => "NE"
  | less => "LT"
  | greater => "GT"
  | comma => "COMMA"
  | bar => "PIPE"
  | leftParen => "LPAREN"
  | rightParen => "RPAREN"
  | leftBracket => "LBRACK"
  | rightBracket => "RBRACK"
  | leftBrace => "LBRACE"
  | rightBrace => "RBRACE"
  | limit => "LIMIT"
  | sum => "SUM"
  | product => "PROD"
  | arrow => "ARROW"
  | compose => "AT"
  | finish => "END"

/-- The numbering follows the list of all symbols. -/
theorem all_getElem?_index (s : Symbol) : all[s.index]? = some s := by
  cases s <;> rfl

theorem index_injective {s t : Symbol} (h : s.index = t.index) : s = t := by
  have hs := all_getElem?_index s
  rw [h, all_getElem?_index t] at hs
  exact (Option.some.inj hs).symm

end Symbol

end Formula
