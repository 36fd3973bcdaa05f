import Formula.LR.Item
import Formula.LR.Lookahead

/-!
# Parse tables

The table of a grammar has a row for each state and a column for each symbol. `Automaton.cell` collects the
candidates of a cell: the state after the symbol, acceptance of a finished goal at the end of the input,
and the productions that may be reduced when the symbol follows their left-hand side. `Grammar.resolve`
settles them by the rules of precedence; a shift and a reduction that precedence cannot settle stay
together as an ambiguity for the parser to decide.
-/

namespace Formula.LR

/-- The candidates of a cell. Productions are in increasing order. -/
structure Cell where
  accept : Bool := false
  shift : Option Nat := none
  reduce : List Nat := []
  goto : Option Nat := none
deriving DecidableEq, Repr

/-- What became of a cell. -/
inductive Resolution where
  | error
  | accept
  | shift (state : Nat)
  | reduce (production : Nat)
  | goto (state : Nat)
  | ambiguous (state production : Nat)
deriving DecidableEq, Repr

/-- How many conflicts were met, by kind. -/
structure Conflicts where
  byPrecedence : Nat := 0
  reduceReduce : Nat := 0
  ambiguous : Nat := 0
deriving DecidableEq, Repr

namespace Conflicts

def add (a b : Conflicts) : Conflicts :=
  ⟨a.byPrecedence + b.byPrecedence, a.reduceReduce + b.reduceReduce, a.ambiguous + b.ambiguous⟩

instance : Add Conflicts := ⟨add⟩

end Conflicts

/-! ## Cells -/

/-- The states of a grammar, with what the cells are read off. -/
structure Automaton where
  grammar : Grammar
  items : ItemTable
  states : List State
  follow : List IndexSet

def Grammar.automaton (g : Grammar) : Automaton :=
  let items := g.itemTable
  ⟨g, items, g.states items, g.follow⟩

namespace Automaton

variable (a : Automaton)

/-- The number of a state; none for the empty one, which stands after a symbol that is not expected. -/
def number? (state : State) : Option Nat :=
  if state.isEmpty then none else a.states.idxOf? state

def isGoal (production : Nat) : Bool := a.grammar.goals.contains production

/-- Whether a symbol may follow the left-hand side of a production. -/
def isFollowedBy (production symbol : Nat) : Bool :=
  (a.grammar.productions[production]?.bind (a.follow[·.lhs]?)).any (·.has symbol)

/-- The candidates for a symbol, given the productions that were read to their ends and the state after
the symbol. -/
def cell (completed : List Nat) (next : State) (symbol : Nat) : Cell :=
  let isNonterminal : Bool := symbol < a.grammar.nonterminals
  let target := a.number? next
  { accept := symbol == a.grammar.endMarker && completed.any a.isGoal
    shift := if isNonterminal then none else target
    reduce := completed.filter fun p => !a.isGoal p && a.isFollowedBy p symbol
    goto := if isNonterminal then target else none }

/-- The cells of a state, one for each symbol. -/
def row (state : State) : List Cell :=
  let completed := a.items.completed state
  (a.items.gotos state).zipIdx.map fun (next, symbol) => a.cell completed next symbol

end Automaton

/-! ## Conflicts -/

namespace Grammar

variable (g : Grammar)

/-- A shift against a reduction: the higher level wins, and on one level the associativity of the
production decides. Without both precedences the choice stays open. -/
def settle (symbol state production : Nat) : Resolution :=
  match g.productionPrec? production, g.tokenPrec? symbol with
  | some p, some t =>
    if t.level < p.level then .reduce production
    else if p.level < t.level then .shift state
    else match p.assoc with
      | .left => .reduce production
      | .right => .shift state
      | .none => .error
  | _, _ => .ambiguous state production

/-- Acceptance wins over everything, and of several reductions the one by the first production. -/
def resolve (symbol : Nat) (c : Cell) : Resolution :=
  if c.accept then .accept
  else match c.goto, c.shift, c.reduce with
    | some s, _, _ => .goto s
    | none, none, [] => .error
    | none, some s, [] => .shift s
    | none, none, p :: _ => .reduce p
    | none, some s, p :: _ => g.settle symbol s p

/-- The conflicts of one cell. Acceptance hides all others. -/
def conflicts (symbol : Nat) (c : Cell) : Conflicts :=
  if c.accept then {}
  else
    let extra := c.reduce.length - 1
    match c.goto, c.shift, c.reduce with
    | none, some s, p :: _ =>
      match g.settle symbol s p with
      | .ambiguous .. => ⟨0, extra, 1⟩
      | _ => ⟨1, extra, 0⟩
    | _, _, _ => ⟨0, extra, 0⟩

end Grammar

/-! ## Actions -/

/-- What a parser does next. -/
inductive Action where
  | error
  | accept
  | shift (state : Nat)
  | reduce (production : Nat)
  | ambiguous (number : Nat)
  | goto (state : Nat)
deriving DecidableEq, Repr

namespace Resolution

/-- The shift and the reduction that stay open. -/
def choice? : Resolution → Option (Nat × Nat)
  | ambiguous s p => some (s, p)
  | _ => none

/-- The action for a resolution that has `number` ambiguities in front of it. -/
def action (number : Nat) : Resolution → Action
  | error => .error
  | accept => .accept
  | shift s => .shift s
  | reduce p => .reduce p
  | goto s => .goto s
  | ambiguous _ _ => .ambiguous number

end Resolution

/-- The shifts and reductions that stay open, in order. -/
def openChoices (rs : List Resolution) : List (Nat × Nat) := rs.filterMap Resolution.choice?

/-- The actions of a row; its ambiguities are numbered from `n` on. -/
def rowActions : Nat → List Resolution → List Action
  | _, [] => []
  | n, r :: rs => r.action n :: rowActions (n + (openChoices [r]).length) rs

/-- The actions of some rows; their ambiguities are numbered from `n` on. -/
def tableActions : Nat → List (List Resolution) → List (List Action)
  | _, [] => []
  | n, row :: rows => rowActions n row :: tableActions (n + (openChoices row).length) rows

/-! ## Tables -/

/-- The tables of a grammar. -/
structure Tables where
  grammar : Grammar
  states : List State
  rows : Array (Array Action)
  ambiguities : Array (Nat × Nat)
  conflicts : Conflicts

/-- The tables of a grammar. -/
def Tables.build (g : Grammar) : Tables :=
  let a := g.automaton
  let cells := a.states.map fun state => a.row state |>.zipIdx
  let resolutions := cells.map (·.map fun (c, symbol) => g.resolve symbol c)
  { grammar := g
    states := a.states
    rows := ((tableActions 0 resolutions).map List.toArray).toArray
    ambiguities := (openChoices resolutions.flatten).toArray
    conflicts := (cells.flatten.map fun (c, symbol) => g.conflicts symbol c).foldl (· + ·) {} }

namespace Tables

variable (t : Tables)

/-- The place of an action, where the rows stand one behind the other. It is a word of 64 bits, and behind the last word
comes zero again. A table has no more places than there are words, so only a symbol that the grammar does not have can
lead there. -/
def place (state symbol : Nat) : Nat :=
  let place := state * t.grammar.symbols + symbol
  if symbol < t.grammar.symbols then place else place % UInt64.size

/-- The action for a symbol in a state, which is found by its place in the whole. -/
def lookup (state symbol : Nat) : Action :=
  let place := t.place state symbol
  let action? := do (← t.rows[place / t.grammar.symbols]?)[place % t.grammar.symbols]?
  action?.getD .error

/-- The two actions behind an ambiguity. -/
def choice (number : Nat) : Action × Action :=
  match t.ambiguities[number]? with
  | some (s, p) => (.shift s, .reduce p)
  | none => (.error, .error)

/-- The state that parsing for a goal starts in. -/
def startState? (goal : Nat) : Option Nat :=
  if goal < t.grammar.goals.length then some goal else none

def stateCount : Nat := t.rows.size

end Tables

end Formula.LR
