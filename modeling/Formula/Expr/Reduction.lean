import Formula.Expr.Names
import Formula.Rule

/-!
# What productions build

For every production the tree, or the arguments, that its phrase stands for. `Phrase` is the row of tokens
that is reduced, and the token below it on the stack: directly behind `@` the name of a function stands for
the function.
-/

namespace Formula

open Text (Span)

/-- The tokens of a right-hand side, and the symbol below them on the stack. -/
structure Phrase where
  tokens : List Token
  below : Option Symbol

namespace Phrase

variable (p : Phrase)

/-- The token at a place of the phrase. -/
def token (place : Nat) : Build Token :=
  match p.tokens[place]? with
  | some t => pure t
  | none => throw (.fault .stackUnderflow)

/-- The source text at a place. -/
def lexeme (place : Nat) : Build String := do
  return (← p.token place).lexeme

/-- The tree at a place. -/
def expr (place : Nat) : Build Expr := do
  let t ← p.token place
  match t.payload with
  | .expr e => pure e
  | _ => throw (.fault (.missingValue t.symbol.index))

/-- The arguments at a place. -/
def args (place : Nat) : Build (List Expr) := do
  let t ← p.token place
  match t.payload with
  | .args es => pure es
  | _ => throw (.fault (.missingValue t.symbol.index))

/-- The span from the first to the last token; `empty` for a phrase without tokens. -/
def span (empty : Span) : Span :=
  match p.tokens.head?, p.tokens.getLast? with
  | some first, some last => first.span.merge last.span
  | _, _ => empty

end Phrase

namespace Setting

variable (s : Setting)

/-- The relation between the trees at two places. -/
def relationOf (p : Phrase) (op : Relation) (right : Nat) : Build Expr := do
  return .relation op (← p.expr 0) (← p.expr right)

/-- The operation on the trees around an operator. -/
def binaryOf (p : Phrase) (op : Operator) : Build Expr := do
  return .binary op (← p.expr 0) (← p.expr 2)

/-- The interval between two brackets. -/
def intervalOf (p : Phrase) (left right : Char) : Build Expr := do
  return .interval left (← p.expr 1) (← p.expr 3) right

/-- A big operator with its variable, its ends and its body. -/
def bigOf (p : Phrase) (op : BigOperator) : Build Expr := do
  return .big op (← p.lexeme 3) (← p.expr 5) (← p.expr 8) (← p.expr 9)

/-- An identifier, or the function of that name when it is composed with something. -/
def nameOrFunction (p : Phrase) : Build Expr := do
  let name ← p.lexeme 0
  match p.below, s.catalog.function? name with
  | some .compose, some f => return .function f
  | _, _ => s.identifier name none

/-- What a production builds from its phrase. -/
def build (p : Phrase) : Rule → Build Payload
  | .start | .definitionStart | .plain | .bareInterval | .groupExpression | .unaryExpression =>
    return .expr (← p.expr 0)
  | .equalTo => return .expr (← relationOf p .eq 2)
  | .unequalTo => return .expr (← relationOf p .ne 2)
  | .lessThan => return .expr (← relationOf p .lt 2)
  | .greaterThan => return .expr (← relationOf p .gt 2)
  | .atMost => return .expr (← relationOf p .le 3)
  | .atLeast => return .expr (← relationOf p .ge 3)
  | .setInterval => do
    let name ← p.lexeme 0
    match NumberSet.ofName? name with
    | some set => return .expr (.setInterval set (← p.expr 2))
    | none => throw (.invalidDomain name)
  | .definition => do
    let params ← p.args 2
    let body ← p.expr 5
    return .expr (.definition (← p.lexeme 0) params body)
  | .definitionWithoutParameters => do
    let body ← p.expr 4
    return .expr (.definition (← p.lexeme 0) [] body)
  | .closedInterval => return .expr (← intervalOf p '[' ']')
  | .rightOpenInterval => return .expr (← intervalOf p '[' ')')
  | .leftOpenInterval => return .expr (← intervalOf p '(' ']')
  | .openInterval => return .expr (← intervalOf p '(' ')')
  | .firstArgument => return .args [← p.expr 0]
  | .nextArgument => return .args ((← p.args 0) ++ [← p.expr 2])
  | .sum => return .expr (← binaryOf p .add)
  | .difference => return .expr (← binaryOf p .sub)
  | .product => return .expr (← binaryOf p .mul)
  | .quotient => return .expr (← binaryOf p .div)
  | .remainder => return .expr (← binaryOf p .mod)
  | .plusGroup | .plusUnary => return .expr (.pos (← p.expr 1))
  | .minusGroup | .minusUnary => return .expr (.neg (← p.expr 1))
  | .juxtaposition => return .expr (.binary .mul (← p.expr 0) (← p.expr 1))
  | .power => do
    let base ← p.expr 0
    let exponent ← p.expr 2
    return .expr (← .ofExcept (Expr.checkedPower base exponent s.limits.exponent))
  | .factorial => do
    let operand ← p.expr 0
    return .expr (← .ofExcept (Expr.checkedFactorial operand s.limits.factorial))
  | .number | .numberBound => return .expr (← s.number (← p.token 0))
  | .parentheses | .brackets | .braces | .parenthesesBound | .bracesBound =>
    return .expr (← p.expr 1)
  | .bars => return .expr (.absolute (← p.expr 1))
  | .identifier => return .expr (← s.nameOrFunction p)
  | .numberSubscript | .nameSubscript =>
    return .expr (← s.identifier (← p.lexeme 0) (some (← p.lexeme 2)))
  | .call => do
    let args ← p.args 2
    return .expr (← s.call (← p.lexeme 0) none args)
  | .callWithoutArguments => return .expr (← s.call (← p.lexeme 0) none [])
  | .numberSubscriptCall | .nameSubscriptCall => do
    let args ← p.args 4
    return .expr (← s.call (← p.lexeme 0) (some (← p.token 2)) args)
  | .composition => do
    let name ← p.lexeme 0
    match s.catalog.function? name with
    | some f => return .expr (.compose (.function f) (← p.expr 2))
    | none => throw (.unknownFunction name)
  | .limit => return .expr (.limit (← p.lexeme 3) (← p.expr 5) (← p.expr 7))
  | .bigSum => return .expr (← bigOf p .sum)
  | .bigProduct => return .expr (← bigOf p .product)
  | .identifierBound => return .expr (← s.identifier (← p.lexeme 0) none)

/-- Takes the phrase of a production from the stack and puts its token there. -/
def reduce (atEnd : Span) (number : Nat) (stack : List Token) : Build (List Token) :=
  match Rule.form? number with
  | none => throw (.fault (.unknownProduction number))
  | some form =>
    let length := form.rhs.length
    if stack.length < length then throw (.fault .stackUnderflow)
    else do
      let phrase : Phrase :=
        ⟨(stack.take length).reverse, stack[length]?.map (·.symbol)⟩
      let payload ← s.build phrase form.rule
      return ⟨form.lhs, "", phrase.span atEnd, payload⟩ :: stack.drop length

end Setting

end Formula
