import Formula.Rule
import Formula.Token.Basic

/-!
# Bars

A bar opens or closes an absolute value, or stands between a set of numbers and an interval. What
precedence leaves open is settled by three rules. A reduction that binds at least as tight as factors next
to each other is made. A lone identifier at the start is the name of a set if the rest of the input is one
pair of brackets with a comma directly inside. Otherwise a bar closes an absolute value if one is open, and
opens one if none is.
-/

namespace Formula.Bars

open LR (Action Tables)

/-- A bracket that opens. -/
def isOpening (s : Symbol) : Bool :=
  s == .leftBracket || s == .leftParen || s == .leftBrace

/-- A bracket that closes. -/
def isClosing (s : Symbol) : Bool :=
  s == .rightBracket || s == .rightParen || s == .rightBrace

/-- Whether the brackets that are open close at the end of the input, after a comma directly inside the
first. -/
def closesAtEnd : Nat → Bool → List Symbol → Bool
  | _, _, [] => false
  | depth, comma, s :: rest =>
    if isOpening s then closesAtEnd (depth + 1) comma rest
    else if isClosing s then
      if depth ≤ 1 then comma && (rest.head?.getD .finish == .finish)
      else closesAtEnd (depth - 1) comma rest
    else closesAtEnd depth (comma || (s == .comma && depth == 1)) rest

/-- Whether the input is one pair of brackets with a comma directly inside. -/
def isIntervalAhead : List Symbol → Bool
  | [] => false
  | s :: rest => (s == .leftBracket || s == .leftParen) && closesAtEnd 1 false rest

/-- How many bars on a stack may still be closed. The one behind a leading name belongs to a set. -/
def openBars (stack : List Symbol) : Nat :=
  match stack.reverse with
  | .identifier :: .bar :: rest => rest.count .bar
  | symbols => symbols.count .bar

/-- Whether the bar is to be shifted, given the production that could be reduced, the stack and the input
behind the bar. -/
def shifts (t : Tables) (production : Nat) (stack input : List Symbol) : Bool :=
  if (t.grammar.productionPrec? production).any (Rule.juxtapositionLevel ≤ ·.level) then false
  else if (Rule.form? production).any (·.rule == .identifier) && stack.length == 1 then
    isIntervalAhead input
  else openBars stack == 0

/-- Settles an open choice. Only bars leave one; before any other token it is a shift. -/
def choose (t : Tables) (number : Nat) (next : Symbol) (stack input : List Symbol) : Action :=
  match t.choice number with
  | (shift, .reduce production) =>
    if next == .bar && !shifts t production stack input then .reduce production else shift
  | (shift, _) => shift

end Formula.Bars
