import Formula.LR.Run

/-!
# Outlines

A parser for any grammar, to look at what its tables do. A token is a symbol with a text; a reduction
writes the symbol of its left-hand side and the texts of the phrase in brackets, so the text of the last
token is an outline of the derivation. The parser keeps a trace of its reductions and of the open choices
it met. It can also be told to break the contract of a reduction, to see that the run reports it.
-/

namespace Formula.LR.Outline

/-- A symbol and the outline of what was read for it. -/
structure Node where
  symbol : Nat
  text : String
deriving DecidableEq, Repr

/-- How open choices are settled. -/
inductive Policy where
  | shift
  | reduce
  | refuse
deriving DecidableEq, Repr

/-- How a reduction treats the stack: as it should, or in one of three wrong ways. -/
inductive Conduct where
  | proper
  | keepsPhrase
  | takesOneMore
  | leavesNothing
deriving DecidableEq, Repr

inductive Error where
  | stepLimit
  | unexpected (symbol : Nat)
  | fault (f : Fault)
deriving DecidableEq, Repr

/-- The number of trace entries after which reductions are refused. -/
def traceLimit : Nat := 500

/-- The trace, most recent entry first, with the number of entries. -/
structure Trace where
  entries : List String := []
  size : Nat := 0

def Trace.push (t : Trace) (entry : String) : Trace :=
  ⟨entry :: t.entries, t.size + 1⟩

/-- A terminal as it stands in the input. -/
def leaf (symbol : Nat) : Node :=
  ⟨symbol, toString symbol⟩

/-- The outline of a phrase. -/
def branch (symbol : Nat) (children : List Node) : Node :=
  ⟨symbol, "(" ++ " ".intercalate (toString symbol :: children.map (·.text)) ++ ")"⟩

variable (t : Tables) (policy : Policy) (conduct : Conduct)

def choose (number : Nat) (next : Node) (trace : Trace) : Except Error Action × Trace :=
  let trace := trace.push ("?" ++ toString number ++ "@" ++ toString next.symbol)
  let action := match policy with
    | .shift => (t.choice number).1
    | .reduce => (t.choice number).2
    | .refuse => .error
  (.ok action, trace)

def reduce (number : Nat) (next : Node) (stack : List Node) (trace : Trace) :
    Except Error (List Node) × Trace :=
  if traceLimit ≤ trace.size then (.error .stepLimit, trace)
  else
    let top := match stack with
      | [] => "-"
      | n :: _ => toString n.symbol
    let trace := trace.push
      ("r" ++ toString number ++ "@" ++ toString next.symbol ++ " top " ++ top)
    match t.grammar.productions[number]? with
    | none => (.error (.fault (.unknownProduction number)), trace)
    | some p =>
      let taken := match conduct with
        | .keepsPhrase => 0
        | .takesOneMore => p.rhs.length + 1
        | _ => p.rhs.length
      if stack.length < taken then (.error (.fault .stackUnderflow), trace)
      else
        let below := stack.drop taken
        match conduct with
        | .leavesNothing => (.ok below, trace)
        | _ => (.ok (branch p.lhs (stack.take taken).reverse :: below), trace)

/-- The semantics of outlines. -/
def semantics : Semantics Node Trace Error where
  symbol := Node.symbol
  endToken := leaf t.grammar.endMarker
  choose number next _ _ trace := choose t policy number next trace
  reduce number next stack trace := reduce t conduct number next stack trace
  unexpected next := .unexpected next.symbol
  fault := .fault

/-- Outlines a row of symbols. Between two reductions at most all input symbols and a row of end markers
are shifted, and the trace bounds the number of reductions. -/
def run (goal : Nat) (input : List Nat) : Outcome Node Trace Error :=
  LR.run t (semantics t policy conduct) ((traceLimit + 2) * (input.length + t.states.length + 2)) goal
    (input.map leaf) {}

end Formula.LR.Outline
