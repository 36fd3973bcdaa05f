import Formula.LR.IndexSet

/-!
# Reachable nodes

The nodes of a finite graph that can be reached from given ones. The nodes are numbers and the edges a list
of pairs. All sets that an LR parser is built from come down to this: which nonterminals may begin where
another stands, which terminals a symbol may begin with, and what may follow it.
-/

namespace Formula.LR

/-- The members of a set and the nodes one edge further. -/
def expand (edges : List (Nat × Nat)) (s : IndexSet) : IndexSet :=
  s.union (.ofList ((edges.filter (s.has ·.1)).map (·.2)))

/-- Expands until nothing new is found, at most `fuel` times. -/
def expandAll (edges : List (Nat × Nat)) : Nat → IndexSet → IndexSet
  | 0, s => s
  | fuel + 1, s =>
    let t := expand edges s
    if t = s then s else expandAll edges fuel t

/-- The nodes that can be reached from a set. Each expansion but the last finds the end of an edge that was
not found before, so one more than there are edges are enough. -/
def reachable (edges : List (Nat × Nat)) (s : IndexSet) : IndexSet :=
  expandAll edges (edges.length + 1) s

end Formula.LR
