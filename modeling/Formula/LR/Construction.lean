import Formula.LR.Table

/-!
# The construction loop by loop

`Tables.build` says what the tables of a grammar are; here they are computed step by step, with lists of work and with
rounds that go on until nothing changes. Productions are rows of symbols, the left-hand side in front. Rows are looked
up by number all the time, and every such lookup may miss: `Grammar.construct` gives nothing if a number is out of range
anywhere, if there is no last symbol, or if a loop is not done within its rounds.

Sets are lists in increasing order, where items or actions are in them, and otherwise sets of indices.
-/

namespace Formula.LR

/-! ## Loops and sets -/

/-- Goes from state to state until a step ends the loop. Nothing comes of it if a step fails or the rounds are used
up. -/
def iterate {σ ρ : Type} (step : σ → Option (σ ⊕ ρ)) : Nat → σ → Option ρ
  | 0, _ => none
  | rounds + 1, s => do
    match ← step s with
    | .inl s => iterate step rounds s
    | .inr r => return r

/-- The order of pairs: the first number decides, then the second. -/
def Earlier (a b : Nat × Nat) : Prop := a.1 < b.1 ∨ a.1 = b.1 ∧ a.2 < b.2

instance (a b : Nat × Nat) : Decidable (Earlier a b) := inferInstanceAs (Decidable (_ ∨ _))

/-- Inserts into a list in increasing order of the keys, unless it is there already. -/
def insertBy {α : Type} [DecidableEq α] (key : α → Nat × Nat) (a : α) : List α → List α
  | [] => [a]
  | b :: bs =>
    if a = b then b :: bs
    else if Earlier (key a) (key b) then a :: b :: bs
    else b :: insertBy key a bs

/-- Items are ordered by their productions, then by their dots. -/
def Item.key (item : Item) : Nat × Nat := (item.production, item.dot)

/-- All members, in increasing order. -/
def IndexSet.members (s : IndexSet) : List Nat := s.toList (s.digits.log2 + 1)

/-- The last of some symbols. -/
def lastOf? (symbols : Nat) : Option Nat := if symbols = 0 then none else some (symbols - 1)

/-- The productions as rows of symbols, the left-hand side in front. -/
def Grammar.encoded (g : Grammar) : List (List Nat) := g.productions.map fun p => p.lhs :: p.rhs

section

variable (productions : List (List Nat)) (nonterminals symbols : Nat) (goals : List Nat) (rounds : Nat)

/-! ## Sets of items -/

/-- The items that were found, and those of them that are still to be looked at. -/
structure Work where
  found : List Item
  pending : List Item

def Work.add (w : Work) (item : Item) : Work :=
  if item ∈ w.found then w else ⟨insertBy Item.key item w.found, item :: w.pending⟩

/-- Adds the start of a production, if it is one of the symbol. -/
def startOne (symbol : Nat) (w : Work) (entry : List Nat × Nat) : Option Work := do
  return if (← entry.1[0]?) = symbol then w.add ⟨entry.2, 0⟩ else w

/-- Adds the starts of all productions of a symbol. -/
def startAll (symbol : Nat) (w : Work) : Option Work := productions.zipIdx.foldlM (startOne symbol) w

/-- Looks at one item. The symbol behind its dot stands one place further in the row. -/
def closureStep (w : Work) : Option (Work ⊕ List Item) :=
  match w.pending with
  | [] => some (.inr w.found)
  | item :: pending => do
    let p ← productions[item.production]?
    match p[item.dot + 1]? with
    | none => return .inl { w with pending }
    | some symbol =>
      if symbol < nonterminals then return .inl (← startAll productions symbol { w with pending })
      else return .inl { w with pending }

/-- The items with all those that may begin behind a dot. -/
def closureOf (items : List Item) : Option (List Item) :=
  iterate (closureStep productions nonterminals) rounds ⟨items, items.reverse⟩

/-- Moves the dot of an item over a symbol, if it stands before it. -/
def moveOver (symbol : Nat) (moved : List Item) (item : Item) : Option (List Item) := do
  let p ← productions[item.production]?
  if item.dot + 1 < p.length then
    if (← p[item.dot + 1]?) = symbol then return insertBy Item.key ⟨item.production, item.dot + 1⟩ moved
    else return moved
  else return moved

/-- The items after a symbol. -/
def gotoOf (items : List Item) (symbol : Nat) : Option (List Item) := do
  closureOf productions nonterminals rounds (← items.foldlM (moveOver productions symbol) [])

/-- Puts a set at the end of a collection, unless it is there already. -/
def insertNew (collection : List (List Item)) (items : List Item) : List (List Item) :=
  if collection.contains items then collection else collection ++ [items]

/-- The sets of items that were found, and how many of them were visited. -/
structure Visits where
  states : List (List Item)
  visited : Nat

/-- Adds the set after a symbol, unless it is empty. -/
def addGoto (items : List Item) (collection : List (List Item)) (symbol : Nat) : Option (List (List Item)) := do
  let next ← gotoOf productions nonterminals rounds items symbol
  return if next.isEmpty then collection else insertNew collection next

/-- Visits a set of items and adds the sets after it. -/
def visitStep (v : Visits) : Option (Visits ⊕ List (List Item)) :=
  if v.visited < v.states.length then do
    let items ← v.states[v.visited]?
    let states ← (List.range symbols).foldlM (addGoto productions nonterminals rounds items) v.states
    return .inl ⟨states, v.visited + 1⟩
  else some (.inr v.states)

/-- Adds the set that begins with a goal. -/
def addGoal (collection : List (List Item)) (goal : Nat) : Option (List (List Item)) := do
  return insertNew collection (← closureOf productions nonterminals rounds [⟨goal, 0⟩])

/-- The sets of items that are reached from the goals. -/
def collectStates : Option (List (List Item)) := do
  let starts ← goals.foldlM (addGoal productions nonterminals rounds) []
  iterate (visitStep productions nonterminals symbols rounds) rounds ⟨starts, 0⟩

/-! ## First terminals -/

/-- Adds to one of some sets, and says whether it has grown. -/
def addTo (sets : List IndexSet) (symbol : Nat) (found : IndexSet) : Option (List IndexSet × Bool) := do
  let old ← sets[symbol]?
  let new := old.union found
  return (sets.set symbol new, new != old)

/-- What symbols may begin with, which of them may be empty, and whether this round has changed any of it. -/
structure FirstSets where
  first : List IndexSet
  nullable : List Bool
  changed : Bool

def FirstSets.add (f : FirstSets) (symbol : Nat) (found : IndexSet) : Option FirstSets := do
  let (first, grown) ← addTo f.first symbol found
  return { f with first, changed := f.changed || grown }

/-- A symbol may begin with what the first of a row may begin with; if that may be empty, with what the next may begin
with; and if all of them may be empty, it may be empty. -/
def firstOfProduction (lhs : Nat) : FirstSets → List Nat → Option FirstSets
  | f, [] => do
    if ← f.nullable[lhs]? then return f
    else return { f with nullable := f.nullable.set lhs true, changed := true }
  | f, symbol :: rest => do
    let f ← f.add lhs (← f.first[symbol]?)
    if ← f.nullable[symbol]? then firstOfProduction lhs f rest else return f

def firstOfEncoded (f : FirstSets) (p : List Nat) : Option FirstSets := do
  firstOfProduction (← p[0]?) f (p.drop 1)

/-- One round over all productions; the last one changes nothing. -/
def firstStep (f : FirstSets) : Option (FirstSets ⊕ FirstSets) := do
  let f ← productions.foldlM firstOfEncoded { f with changed := false }
  return if f.changed then .inl f else .inr f

def firstSets : Option FirstSets :=
  iterate (firstStep productions) rounds
    { first := (List.range symbols).map fun symbol => if nonterminals ≤ symbol then .ofList [symbol] else .empty
      nullable := List.replicate symbols false
      changed := true }

/-! ## Following terminals -/

/-- What may follow nonterminals, and whether this round has changed any of it. -/
structure FollowSets where
  follow : List IndexSet
  changed : Bool

def FollowSets.add (s : FollowSets) (symbol : Nat) (found : IndexSet) : Option FollowSets := do
  let (follow, grown) ← addTo s.follow symbol found
  return ⟨follow, s.changed || grown⟩

/-- Adds to a nonterminal what follows a left-hand side, if that may end with it. -/
def FollowSets.pass (s : FollowSets) (lhs symbol : Nat) (isLast : Bool) : Option FollowSets :=
  if isLast then do s.add symbol (← s.follow[lhs]?) else some s

/-- What a row may begin with, and whether it may be empty. -/
def firstOfRest (f : FirstSets) : IndexSet → List Nat → Option (IndexSet × Bool)
  | found, [] => some (found, true)
  | found, symbol :: rest => do
    let found := found.union (← f.first[symbol]?)
    if ← f.nullable[symbol]? then firstOfRest f found rest else return (found, false)

/-- Each nonterminal of a row may be followed by what stands behind it, and by what may follow the whole row if that
may be empty. -/
def followInProduction (f : FirstSets) (lhs : Nat) : FollowSets → List Nat → Option FollowSets
  | s, [] => some s
  | s, symbol :: rest =>
    if nonterminals ≤ symbol then followInProduction f lhs s rest
    else do
      let (found, isNullable) ← firstOfRest f .empty rest
      let s ← s.add symbol found
      let s ← s.pass lhs symbol isNullable
      followInProduction f lhs s rest

def followInEncoded (f : FirstSets) (s : FollowSets) (p : List Nat) : Option FollowSets := do
  followInProduction nonterminals f (← p[0]?) s (p.drop 1)

def followStep (f : FirstSets) (s : FollowSets) : Option (FollowSets ⊕ List IndexSet) := do
  let s ← productions.foldlM (followInEncoded nonterminals f) { s with changed := false }
  return if s.changed then .inl s else .inr s.follow

/-- What may follow each nonterminal. Behind a goal stands the last symbol. -/
def followSets (f : FirstSets) : Option (List IndexSet) := do
  let starts ← goals.mapM fun goal => do (← productions[goal]?)[0]?
  let marker ← lastOf? symbols
  let s ← starts.foldlM (fun s symbol => s.add symbol (.ofList [marker]))
    ⟨List.replicate nonterminals .empty, true⟩
  iterate (followStep productions nonterminals f) rounds s

/-! ## Cells -/

/-- A candidate of a cell. -/
inductive Act where
  | accept
  | shift (state : Nat)
  | reduce (production : Nat)
  | goto (state : Nat)
deriving DecidableEq, Repr

/-- The kind of a candidate and its number, by which candidates are ordered. -/
def Act.key : Act → Nat × Nat
  | accept => (1, 0)
  | shift state => (2, state)
  | reduce production => (3, production)
  | goto state => (5, state)

/-- Adds a candidate to a cell of a row. -/
def addAct (row : List (List Act)) (symbol : Nat) (act : Act) : Option (List (List Act)) := do
  let cell ← row[symbol]?
  return row.set symbol (insertBy Act.key act cell)

/-- Adds what leads to the set of items after a symbol, if there is one. -/
def addTarget (collection : List (List Item)) (items : List Item) (act : Nat → Act) (row : List (List Act))
    (symbol : Nat) : Option (List (List Act)) := do
  match collection.idxOf? (← gotoOf productions nonterminals rounds items symbol) with
  | some state => addAct row symbol (act state)
  | none => return row

/-- Adds the candidates of one item. -/
def addItem (collection : List (List Item)) (follow : List IndexSet) (items : List Item) (row : List (List Act))
    (item : Item) : Option (List (List Act)) := do
  let p ← productions[item.production]?
  if item.dot + 1 < p.length then do
    let symbol ← p[item.dot + 1]?
    if nonterminals ≤ symbol then addTarget productions nonterminals rounds collection items .shift row symbol
    else return row
  else if goals.contains item.production then addAct row (← lastOf? symbols) .accept
  else do
    let followers ← follow[← p[0]?]?
    followers.members.foldlM (fun row symbol => addAct row symbol (.reduce item.production)) row

/-- Adds the candidates of a set of items to its row. -/
def fillRow (collection : List (List Item)) (follow : List IndexSet) (items : List Item) (row : List (List Act)) :
    Option (List (List Act)) := do
  let row ← (List.range nonterminals).foldlM
    (addTarget productions nonterminals rounds collection items .goto) row
  items.foldlM (addItem productions nonterminals symbols goals rounds collection follow items) row

/-- Fills the row of a set of items. -/
def fillState (collection : List (List Item)) (follow : List IndexSet) (table : List (List (List Act)))
    (entry : List Item × Nat) : Option (List (List (List Act))) := do
  let row ← fillRow productions nonterminals symbols goals rounds collection follow entry.1 (← table[entry.2]?)
  return table.set entry.2 row

/-- The candidates of all cells. -/
def fillTable (collection : List (List Item)) (follow : List IndexSet) : Option (List (List (List Act))) :=
  collection.zipIdx.foldlM (fillState productions nonterminals symbols goals rounds collection follow)
    (List.replicate collection.length (List.replicate symbols []))

end

/-! ## Actions -/

/-- The last shift and the first reduction among the candidates, with every further reduction counted; acceptance and a
way on end the search. -/
def scanCell : List Act → Option Nat → Option Nat → Conflicts → (Resolution ⊕ Option Nat × Option Nat) × Conflicts
  | [], shift, reduce, c => (.inr (shift, reduce), c)
  | .accept :: _, _, _, c => (.inl .accept, c)
  | .goto state :: _, _, _, c => (.inl (.goto state), c)
  | .shift state :: acts, _, reduce, c => scanCell acts (some state) reduce c
  | .reduce production :: acts, shift, none, c => scanCell acts shift (some production) c
  | .reduce _ :: acts, shift, some kept, c =>
    scanCell acts shift (some kept) { c with reduceReduce := c.reduceReduce + 1 }

namespace Grammar

variable (g : Grammar)

/-- The precedence, if it has one, of a production that has to be there. -/
def precAt (production : Nat) : Option (Option Prec) := do
  return g.precOf? (← g.productions[production]?)

/-- Settles a cell. The production is looked up only if it stands against a shift. -/
def resolveCell (symbol : Nat) (cell : List Act) (c : Conflicts) : Option (Resolution × Conflicts) :=
  match scanCell cell none none c with
  | (.inl r, c) => some (r, c)
  | (.inr (none, none), c) => some (.error, c)
  | (.inr (some state, none), c) => some (.shift state, c)
  | (.inr (none, some production), c) => some (.reduce production, c)
  | (.inr (some state, some production), c) => do
    let _ ← g.precAt production
    match g.settle symbol state production with
    | .ambiguous s p => return (.ambiguous s p, { c with ambiguous := c.ambiguous + 1 })
    | r => return (r, { c with byPrecedence := c.byPrecedence + 1 })

end Grammar

/-- The actions of the cells that were settled, with the shifts and reductions that stay open. -/
structure Settled where
  actions : List Action := []
  ambiguities : List (Nat × Nat) := []
  conflicts : Conflicts := {}

/-- Settles the next cell and adds its action. -/
def Settled.add (g : Grammar) (t : Settled) (symbol : Nat) (cell : List Act) : Option Settled := do
  let (r, conflicts) ← g.resolveCell symbol cell t.conflicts
  return {
    actions := t.actions ++ [r.action t.ambiguities.length]
    ambiguities := t.ambiguities ++ openChoices [r]
    conflicts }

/-- Settles the cells of a row. -/
def Settled.addRow (g : Grammar) (t : Settled) (row : List (List Act)) : Option Settled :=
  row.zipIdx.foldlM (fun t (cell, symbol) => t.add g symbol cell) t

/-- Tables with the rows one behind the other, and with all that a parser looks up of the grammar. -/
structure FlatTables where
  symbols : Nat
  actions : List Action
  ambiguities : List (Nat × Nat)
  lhs : List Nat
  lengths : List Nat
  precedences : List (Option Prec)
  goals : List Nat
  conflicts : Conflicts

/-- The rows of tables one behind the other. -/
def Tables.flat (t : Tables) : FlatTables where
  symbols := t.grammar.symbols
  actions := (t.rows.toList.map Array.toList).flatten
  ambiguities := t.ambiguities.toList
  lhs := t.grammar.productions.map (·.lhs)
  lengths := t.grammar.productions.map (·.rhs.length)
  precedences := t.grammar.productions.map t.grammar.precOf?
  goals := t.grammar.goals
  conflicts := t.conflicts

/-- The tables of a grammar, if no lookup misses and every loop is done within the rounds. -/
def Grammar.construct (g : Grammar) (rounds : Nat) : Option FlatTables := do
  let collection ← collectStates g.encoded g.nonterminals g.symbols g.goals rounds
  let first ← firstSets g.encoded g.nonterminals g.symbols rounds
  let follow ← followSets g.encoded g.nonterminals g.symbols g.goals rounds first
  let table ← fillTable g.encoded g.nonterminals g.symbols g.goals rounds collection follow
  let t ← table.foldlM (Settled.addRow g) {}
  let precedences ← (List.range g.productions.length).mapM g.precAt
  return {
    symbols := g.symbols
    actions := t.actions
    ambiguities := t.ambiguities
    lhs := g.productions.map (·.lhs)
    lengths := g.productions.map (·.rhs.length)
    precedences
    goals := g.goals
    conflicts := t.conflicts }

end Formula.LR
