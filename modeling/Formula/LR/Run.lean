import Formula.LR.Table

/-!
# Shift-reduce parsing

A parser reads tokens, keeps a stack of states and a stack of tokens, and asks its tables what to do next.
What a reduction builds, how an open choice is settled and what an error says belongs to the language that
is parsed; `Semantics` holds these. `step` is one turn, and `run` turns until the input is accepted or
refused.

The stack of states always has one entry more than the stack of tokens. A reduction that breaks this is
reported at once, as are the other faults of `Fault`: none of them is an error of the input.
-/

namespace Formula.LR

/-- A disagreement between the tables and the semantics. -/
inductive Fault where
  | stackUnderflow
  | missingGoto (state symbol : Nat)
  | stackMismatch (tokens states : Nat)
  | unknownGoal (goal : Nat)
  | badAccept (tokens : Nat)
  | unknownProduction (production : Nat)
  | missingValue (symbol : Nat)
  /-- The parser did not come to an end within the turns it was given. -/
  | stalled
deriving DecidableEq, Repr

def Fault.message : Fault → String
  | .stackUnderflow => "parser stack underflow"
  | .missingGoto state symbol =>
    "no goto from state " ++ toString state ++ " on symbol " ++ toString symbol
  | .stackMismatch tokens states =>
    "reduction left " ++ toString tokens ++ " tokens for " ++ toString states ++ " states"
  | .unknownGoal goal => "unknown goal " ++ toString goal
  | .badAccept tokens => "accepted with " ++ toString tokens ++ " tokens on the stack"
  | .unknownProduction p => "unknown production " ++ toString p
  | .missingValue symbol =>
    "symbol " ++ toString symbol ++ " on the parser stack carries no semantic value"
  | .stalled => "parser stalled"

/-- What a language adds to its tables: tokens `τ`, a memory `σ` that actions may change, errors `ε`. -/
structure Semantics (τ σ ε : Type) where
  /-- The symbol of a token. -/
  symbol : τ → Nat
  /-- The token that is read when the input is used up. -/
  endToken : τ
  /-- Settles an open choice, given its number, the next token, the stack and the input behind the next
  token. -/
  choose : Nat → τ → List τ → List τ → σ → Except ε Action × σ
  /-- The stack after a reduction, given the production, the next token and the stack. -/
  reduce : Nat → τ → List τ → σ → Except ε (List τ) × σ
  /-- The error for a token without an action. -/
  unexpected : τ → ε
  fault : Fault → ε

/-- How often a parser did what. -/
structure Stats where
  tokens : Nat := 0
  shifts : Nat := 0
  reductions : Nat := 0
  ambiguities : Nat := 0
deriving DecidableEq, Repr

/-- A parser between two turns. The stacks have their top in front. -/
structure Config (τ σ : Type) where
  states : List Nat
  stack : List τ
  next : τ
  rest : List τ
  stats : Stats
  memo : σ

/-- What a parser leaves behind. -/
structure Outcome (τ σ ε : Type) where
  result : Except ε τ
  stats : Stats
  memo : σ

/-- A turn leads to another or ends the run. -/
inductive Turn (τ σ ε : Type) where
  | go (c : Config τ σ)
  | stop (o : Outcome τ σ ε)

section

variable {τ σ ε : Type} (t : Tables) (s : Semantics τ σ ε)

namespace Config

variable (c : Config τ σ)

/-- The state that the parser is in. -/
def state : Nat := c.states.headD 0

/-- Ends the run with an error. -/
def fail (e : ε) : Turn τ σ ε := .stop ⟨.error e, c.stats, c.memo⟩

/-- Reads the next token. -/
def advance : Config τ σ :=
  let stats := { c.stats with tokens := c.stats.tokens + 1 }
  match c.rest with
  | [] => { c with next := s.endToken, stats }
  | next :: rest => { c with next, rest, stats }

/-- Pushes the next token and the state behind it. -/
def shift (state : Nat) : Config τ σ :=
  Config.advance s
    { c with
      states := state :: c.states
      stack := c.next :: c.stack
      stats := { c.stats with shifts := c.stats.shifts + 1 } }

/-- Puts the states in step with a stack that was reduced by a production. -/
def settle (production : Production) (stack : List τ) : Turn τ σ ε :=
  match c.states.drop production.rhs.length with
  | [] => c.fail (s.fault .stackUnderflow)
  | top :: below =>
    if stack.length ≠ below.length + 1 then
      c.fail (s.fault (.stackMismatch stack.length (below.length + 1)))
    else match t.lookup top production.lhs with
      | .goto state =>
        .go
          { c with
            states := state :: top :: below
            stack
            stats := { c.stats with reductions := c.stats.reductions + 1 } }
      | _ => c.fail (s.fault (.missingGoto top production.lhs))

/-- Reduces by a production. -/
def reduce (number : Nat) : Turn τ σ ε :=
  match s.reduce number c.next c.stack c.memo with
  | (.error e, memo) => { c with memo }.fail e
  | (.ok stack, memo) =>
    match t.grammar.productions[number]? with
    | some production => { c with memo }.settle t s production stack
    | none => { c with memo }.fail (s.fault (.unknownProduction number))

/-- Accepts the one token on the stack. -/
def accept : Turn τ σ ε :=
  match c.stack with
  | [token] => .stop ⟨.ok token, c.stats, c.memo⟩
  | stack => c.fail (s.fault (.badAccept stack.length))

/-- Does what an action says. -/
def act : Action → Turn τ σ ε
  | .shift state => .go (c.shift s state)
  | .reduce production => c.reduce t s production
  | .accept => c.accept s
  | _ => c.fail (s.unexpected c.next)

/-- One turn of the parser. -/
def step : Turn τ σ ε :=
  match t.lookup c.state (s.symbol c.next) with
  | .ambiguous number =>
    let stats := { c.stats with ambiguities := c.stats.ambiguities + 1 }
    match s.choose number c.next c.stack c.rest c.memo with
    | (.error e, memo) => { c with stats, memo }.fail e
    | (.ok action, memo) => { c with stats, memo }.act t s action
  | action => c.act t s action

end Config

/-- The parser before its first turn, with the first token read. -/
def Config.start (state : Nat) (input : List τ) (memo : σ) : Config τ σ :=
  Config.advance s ⟨[state], [], s.endToken, input, {}, memo⟩

/-- Turns until the run ends, at most `fuel` times. -/
def turns : Nat → Config τ σ → Outcome τ σ ε
  | 0, c => ⟨.error (s.fault .stalled), c.stats, c.memo⟩
  | fuel + 1, c =>
    match c.step t s with
    | .go c => turns fuel c
    | .stop o => o

/-- Parses one sentence for a goal and returns the token that stands for it. -/
def run (fuel goal : Nat) (input : List τ) (memo : σ) : Outcome τ σ ε :=
  match t.startState? goal with
  | none => ⟨.error (s.fault (.unknownGoal goal)), {}, memo⟩
  | some state => turns t s fuel (Config.start s state input memo)

end

end Formula.LR
