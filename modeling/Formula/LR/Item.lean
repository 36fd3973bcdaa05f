import Formula.LR.Grammar
import Formula.LR.Reach

/-!
# Items and states

An item is a production with a dot in it: what stands before the dot has been read. The items of a grammar
are numbered, and a state of the parser is the set of the numbers of its items. When the dot moves over a
symbol the number grows by one, so that all items of a state move at once.

`ItemTable.close` adds the items that may begin where the dot stands, `ItemTable.advance` moves the dot over a
symbol, and `Grammar.states` lists the states that can be reached from the goals, in the order in which they
are met.
-/

namespace Formula.LR

/-- A production with a dot behind the first `dot` symbols of its right-hand side. -/
structure Item where
  production : Nat
  dot : Nat
deriving DecidableEq, Repr

/-- A set of items by their numbers. -/
abbrev State := IndexSet

namespace Grammar

variable (g : Grammar)

/-! ## Items -/

/-- All items of the grammar. The place of an item in this list is its number. -/
def items : List Item :=
  g.productions.zipIdx.flatMap fun (p, i) => (List.range (p.rhs.length + 1)).map (⟨i, ·⟩)

/-- The symbol behind the dot. -/
def next? (item : Item) : Option Nat :=
  g.productions[item.production]?.bind (·.rhs[item.dot]?)

/-- The left-hand side of an item's production. -/
def lhs? (item : Item) : Option Nat :=
  g.productions[item.production]?.map (·.lhs)

/-- An item with the dot at the end. -/
def isComplete (item : Item) : Bool :=
  (g.next? item).isNone

/-- The items of a state, in increasing order. -/
def itemsOf (state : State) : List Item :=
  (g.items.zipIdx.filter fun (_, number) => state.has number).map (·.1)

/-- The symbol behind the dot of each item that is not complete, with the number of the item. -/
def expectations : List (Nat × Nat) :=
  g.items.zipIdx.filterMap fun (item, number) => (g.next? item).map (·, number)

/-- The left-hand side of each item whose dot stands at the start, with the number of the item. -/
def openings : List (Nat × Nat) :=
  g.items.zipIdx.filterMap fun (item, number) =>
    if item.dot = 0 then (g.lhs? item).map (·, number) else none

/-- The production of each complete item, with the number of the item. -/
def completions : List (Nat × Nat) :=
  g.items.zipIdx.filterMap fun (item, number) =>
    if g.isComplete item then some (item.production, number) else none

/-- A nonterminal leads to the nonterminal that one of its productions begins with. -/
def beginnings : List (Nat × Nat) :=
  g.productions.filterMap fun p =>
    match p.rhs with
    | s :: _ => if s < g.nonterminals then some (p.lhs, s) else none
    | [] => none

end Grammar

/-! ## Moving the dot -/

/-- What is looked up about the items of a grammar: for each symbol the items whose dot stands before it,
for each nonterminal the items that may begin where it is expected, and for each production the number of
its complete item. -/
structure ItemTable where
  before : List IndexSet
  opening : List IndexSet
  completions : List (Nat × Nat)

namespace Grammar

variable (g : Grammar)

/-- The items whose dot stands before a symbol. -/
def before (symbol : Nat) : IndexSet :=
  .ofList ((g.expectations.filter (·.1 == symbol)).map (·.2))

/-- The items that may begin where a nonterminal is expected: those that start a production of it, or of a
nonterminal that it may begin with. -/
def opening (nonterminal : Nat) : IndexSet :=
  let beginners := reachable g.beginnings (.ofList [nonterminal])
  .ofList ((g.openings.filter (beginners.has ·.1)).map (·.2))

def itemTable : ItemTable where
  before := (List.range g.symbols).map g.before
  opening := (List.range g.nonterminals).map g.opening
  completions := g.completions

end Grammar

namespace ItemTable

variable (t : ItemTable)

/-- The items with all those that may begin where the dot of one of them stands. Nonterminals have the
lowest numbers, so the two lists run side by side. -/
def close (items : State) : State :=
  items.union (.unions ((t.before.zip t.opening).filterMap fun (before, opening) =>
    if (items.inter before).isEmpty then none else some opening))

/-- The state after a symbol, given the items whose dot stands before the symbol; empty if no item of the
state is among them. -/
def advance (state : State) (before : IndexSet) : State :=
  let kernel := (state.inter before).next
  if kernel.isEmpty then .empty else t.close kernel

/-- The states after each symbol; empty for a symbol that is not expected. -/
def gotos (state : State) : List State :=
  t.before.map (t.advance state)

/-- The productions that a state has read to their ends, in increasing order. -/
def completed (state : State) : List Nat :=
  (t.completions.filter (state.has ·.2)).map (·.1)

end ItemTable

/-! ## All states -/

/-- Appends what is not yet in the list, each once. -/
def appendNew (known : List State) (found : List State) : List State :=
  found.foldl (fun acc s => if acc.contains s then acc else acc ++ [s]) known

namespace Grammar

variable (g : Grammar) (t : ItemTable)

/-- The state before the input, for the goal production with the given number. -/
def start (goal : Nat) : State :=
  t.close (.ofList (g.items.findIdx? (· == ⟨goal, 0⟩)).toList)

/-- Visits the states from number `visited` on, at most `fuel` of them, and adds the states after them. -/
def explore : Nat → Nat → List State → List State
  | 0, _, states => states
  | fuel + 1, visited, states =>
    match states[visited]? with
    | none => states
    | some state =>
      explore fuel (visited + 1) (appendNew states ((t.gotos state).filter (!·.isEmpty)))

/-- The states that can be reached from the goals. There are no more than sets of items. -/
def states : List State :=
  explore t (Nat.pow 2 g.items.length) 0 (appendNew [] (g.goals.map (g.start t)))

end Grammar

end Formula.LR
