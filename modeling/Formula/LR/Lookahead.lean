import Formula.LR.Grammar
import Formula.LR.Reach

/-!
# What a phrase begins with and what follows it

`nullable` holds the symbols that derive the empty text, `first` the terminals that a symbol may begin with,
and `follow` those that may stand behind a nonterminal. The last two are read off the nodes that can be
reached in a graph of the productions.
-/

namespace Formula.LR.Grammar

variable (g : Grammar)

/-! ## Symbols that derive nothing -/

/-- The known symbols with the left-hand sides of productions over them. -/
def nullableStep (known : IndexSet) : IndexSet :=
  known.union (.ofList ((g.productions.filter (·.rhs.all known.has)).map (·.lhs)))

/-- The symbols that derive the empty text. Each round but the last finds a new nonterminal. -/
def nullable : IndexSet :=
  Nat.repeat g.nullableStep g.nonterminals .empty

/-! ## First terminals -/

/-- A production leads from its left-hand side to every symbol that only nullable ones stand before. -/
def leads (nullable : IndexSet) (lhs : Nat) : List Nat → List (Nat × Nat)
  | [] => []
  | s :: rest => (lhs, s) :: if nullable.has s then leads nullable lhs rest else []

/-- The graph of first symbols. -/
def firstEdges (nullable : IndexSet) : List (Nat × Nat) :=
  (g.productions.flatMap fun p => leads nullable p.lhs p.rhs).eraseDups

/-- The symbols that are no nonterminals. -/
def terminals : IndexSet :=
  .ofList ((List.range g.symbols).filter (g.nonterminals ≤ ·))

/-- The terminals that a symbol may begin with, given the graph of first symbols. -/
def firstOf (edges : List (Nat × Nat)) (symbol : Nat) : IndexSet :=
  (reachable edges (.ofList [symbol])).inter g.terminals

/-- The terminals that each symbol may begin with. -/
def first : List IndexSet :=
  let edges := g.firstEdges g.nullable
  (List.range g.symbols).map (g.firstOf edges)

/-- The terminals that a row of symbols may begin with. -/
def firstOfRow (nullable : IndexSet) (first : List IndexSet) : List Nat → IndexSet
  | [] => .empty
  | s :: rest =>
    let here := first[s]?.getD .empty
    if nullable.has s then here.union (firstOfRow nullable first rest) else here

/-! ## Following terminals -/

/-- The symbols of a row, each with what stands behind it. -/
def splits : List Nat → List (Nat × List Nat)
  | [] => []
  | s :: rest => (s, rest) :: splits rest

/-- Every place where a nonterminal stands in a production: the left-hand side, the nonterminal, and the
symbols behind it. -/
def occurrences : List (Nat × Nat × List Nat) :=
  g.productions.flatMap fun p =>
    ((splits p.rhs).filter (·.1 < g.nonterminals)).map fun (s, rest) => (p.lhs, s, rest)

/-- What follows a left-hand side follows a nonterminal that ends one of its productions. -/
def followEdges (nullable : IndexSet) : List (Nat × Nat) :=
  (g.occurrences.filterMap fun (lhs, s, rest) =>
    if rest.all nullable.has then some (s, lhs) else none).eraseDups

/-- What stands directly behind a nonterminal in some production; behind a goal stands the end. -/
def followSeed (nullable : IndexSet) (first : List IndexSet) (symbol : Nat) : IndexSet :=
  let behind := g.occurrences.filterMap fun (_, s, rest) =>
    if s = symbol then some (firstOfRow nullable first rest) else none
  let atEnd : IndexSet := if g.goalSymbols.contains symbol then .ofList [g.endMarker] else .empty
  atEnd.union (.unions behind)

/-- What may follow a nonterminal, given what stands directly behind each. -/
def followOf (edges : List (Nat × Nat)) (seeds : List IndexSet) (symbol : Nat) : IndexSet :=
  let sources := reachable edges (.ofList [symbol])
  .unions ((sources.toList g.nonterminals).filterMap (seeds[·]?))

/-- The terminals that may follow each nonterminal. -/
def follow : List IndexSet :=
  let nullable := g.nullable
  let first := g.first
  let edges := g.followEdges nullable
  let seeds := (List.range g.nonterminals).map (g.followSeed nullable first)
  (List.range g.nonterminals).map (g.followOf edges seeds)

end Formula.LR.Grammar
