/-!
# Grammars

A context-free grammar with operator precedence. Symbols are numbers: the nonterminals come first, the
terminals follow, and the last symbol marks the end of the input. A goal is a production `G → X`; a grammar
may have several, and a parser reads a sentence of the `X` of one of them.

`Grammar.build` refuses what the table construction could not work with; `GrammarError` lists its reasons.
-/

namespace Formula.LR

/-- Which of two operators of one level binds first. -/
inductive Assoc where
  | left
  | right
  | none
deriving DecidableEq, Repr

/-- A level of precedence; a higher one binds tighter. -/
structure Prec where
  level : Nat
  assoc : Assoc
deriving DecidableEq, Repr

/-- A production `lhs → rhs`, with a precedence of its own if it has one. -/
structure Production where
  lhs : Nat
  rhs : List Nat
  prec : Option Prec := none
deriving DecidableEq, Repr

/-- A grammar. The labels name all symbols; `precedences` pairs terminals with their precedence, and a
later pair overrides an earlier one. -/
structure Grammar where
  labels : List String
  nonterminals : Nat
  productions : List Production
  goals : List Nat
  precedences : List (Nat × Prec)
deriving DecidableEq, Repr

/-- Why a grammar is refused. -/
inductive GrammarError where
  | symbolOutOfRange (production symbol symbols : Nat)
  | terminalOnLeft (production symbol : Nat)
  | badGoal (production : Nat)
  | noGoals
  | labelCount (labels symbols : Nat)
deriving DecidableEq, Repr

def GrammarError.message : GrammarError → String
  | .symbolOutOfRange p s n =>
    "symbol " ++ toString s ++ " in production " ++ toString p ++ " is out of range (" ++ toString n ++
      " symbols)"
  | .terminalOnLeft p s =>
    "production " ++ toString p ++ " has terminal " ++ toString s ++ " on its left-hand side"
  | .badGoal p =>
    "goal production " ++ toString p ++ " must have exactly one right-hand side symbol"
  | .noGoals => "grammar has no goal productions"
  | .labelCount l s => "grammar has " ++ toString l ++ " labels for " ++ toString s ++ " symbols"

namespace Grammar

variable (g : Grammar)

/-- The number of symbols. -/
def symbols : Nat := g.labels.length

/-- The symbol that marks the end of the input. -/
def endMarker : Nat := g.symbols - 1

/-- The name of a symbol. -/
def label (symbol : Nat) : String :=
  g.labels[symbol]?.getD "?"

/-- The precedence of a terminal. -/
def tokenPrec? (symbol : Nat) : Option Prec :=
  (g.precedences.reverse.find? (·.1 == symbol)).map (·.2)

/-- The precedence of a production: its own, or else that of its last terminal. -/
def precOf? (p : Production) : Option Prec :=
  p.prec <|> (p.rhs.reverse.find? (g.nonterminals ≤ ·)).bind g.tokenPrec?

/-- The precedence of the production with the given number. -/
def productionPrec? (production : Nat) : Option Prec :=
  g.productions[production]?.bind g.precOf?

/-- The left-hand sides of the goals, the symbols that a whole input stands for. -/
def goalSymbols : List Nat :=
  g.goals.filterMap fun p => g.productions[p]?.map (·.lhs)

/-! ## Validation -/

/-- The number that stands for no production in an error about a precedence. -/
def noProduction : Nat := Nat.pow 2 64 - 1

/-- Each production has a nonterminal on the left and symbols on the right. -/
def checkProduction (number : Nat) (p : Production) : Except GrammarError Unit :=
  if g.nonterminals ≤ p.lhs then throw (.terminalOnLeft number p.lhs)
  else match p.rhs.find? (g.symbols ≤ ·) with
    | some s => throw (.symbolOutOfRange number s g.symbols)
    | none => pure ()

/-- Each goal is a production with one symbol on the right. -/
def checkGoal (goal : Nat) : Except GrammarError Unit :=
  match g.productions[goal]? with
  | some ⟨_, [_], _⟩ => pure ()
  | _ => throw (.badGoal goal)

/-- Only terminals carry a precedence. -/
def checkPrecedence (entry : Nat × Prec) : Except GrammarError Unit :=
  if g.nonterminals ≤ entry.1 ∧ entry.1 < g.symbols then pure ()
  else throw (.symbolOutOfRange noProduction entry.1 g.symbols)

/-- All checks, in the order in which their errors win. -/
def check : Except GrammarError Unit := do
  if g.symbols < g.nonterminals then throw (.labelCount g.symbols g.nonterminals)
  g.productions.zipIdx.forM fun (p, i) => g.checkProduction i p
  if g.goals = [] then throw .noGoals
  g.goals.forM g.checkGoal
  g.precedences.forM g.checkPrecedence

/-- The grammar, if it passes all checks. -/
def build : Except GrammarError Grammar := do
  g.check
  return g

end Grammar

end Formula.LR
