import Formula.Expr.Bars
import Formula.Expr.Reduction
import Formula.Token.Lexer

/-!
# From tokens to trees

The parser of the notation: its tables, its reductions and its rule for bars put together. `parse` reads an
equation, an inequality, an interval or an expression, or else a definition. A relation that has a truth
value becomes a truth.
-/

namespace Formula

open LR (Outcome Semantics)
open Text (Position Span)

/-- What a text is read as. -/
inductive Goal where
  | equation
  | definition
deriving DecidableEq, Repr

/-- The number of a goal in the grammar. -/
def Goal.index : Goal → Nat
  | equation => Rule.equationGoal
  | definition => Rule.definitionGoal

namespace Setting

variable (s : Setting)

/-- The error for a token that cannot stand where it stands. -/
def unexpected (t : Token) : Error :=
  match t.symbol with
  | .finish => .unexpectedEnd t.position
  | symbol => .unexpected symbol t.lexeme t.position

/-- The meaning of the tables for a text that ends at a position. -/
def semantics (stop : Position) : Semantics Token (List String) Error where
  symbol t := t.symbol.index
  endToken := .finish stop
  choose number next stack input names :=
    (.ok (Bars.choose Rule.tables number next.symbol (stack.map (·.symbol))
      (input.map (·.symbol))), names)
  reduce number _ stack := s.reduce ⟨stop, stop⟩ number stack
  unexpected := unexpected
  fault := .fault

/-- Where a row of tokens ends: behind the last one that is not the end of the input itself. -/
def stopOf (tokens : List Token) : Position :=
  match tokens.reverse.find? (·.symbol != .finish) with
  | some t => t.span.stop
  | none => {}

/-- Runs the parser, with the variables met before. Every production has at least one symbol, and at most
three in a row have only one, so eight turns for each token are enough. -/
def run (goal : Goal) (tokens : List Token) (names : List String) :
    Outcome Token (List String) Error :=
  LR.run Rule.tables (s.semantics (stopOf tokens)) (8 * (tokens.length + 2)) goal.index tokens names

/-- A tree or an error, and the variables met on the way. -/
structure Parsed where
  result : Except Error Expr
  variableNames : List String

/-- The tree that a token carries. -/
def exprOf (t : Token) : Except Error Expr :=
  match t.payload with
  | .expr e => .ok e
  | _ => .error (.fault (.missingValue t.symbol.index))

/-- Parses a row of tokens. -/
def parseTokens (goal : Goal) (tokens : List Token) (names : List String) : Parsed :=
  let outcome := s.run goal tokens names
  ⟨do return (← exprOf (← outcome.result)).classify, outcome.memo⟩

/-- Parses a text. An error among its tokens comes before all others. -/
def parse (goal : Goal) (text : String) : Parsed :=
  let scan := tokenize text
  match scan.failure with
  | some e => ⟨.error e, []⟩
  | none => s.parseTokens goal scan.tokens []

end Setting

end Formula
