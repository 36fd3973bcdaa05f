import Formula.Expr.Free
import Formula.Expr.Parse

/-!
# Working with notation

A setting grows by constants, symbols and definitions, and reads texts with all of them. A setting is a
value: adding to it leaves every other one as it was. A `Problem` is an equation with what it needs: its
definitions and constants, and the domain it is asked for.
-/

namespace Formula

/-- A text that was read: its tree and the variables met on the way, with repeats. -/
structure Reading where
  root : Expr
  variableNames : List String

namespace Reading

def evaluate (r : Reading) : Except Error Value := r.root.evaluate

def freeSymbols (r : Reading) : List String := r.root.freeSymbols

end Reading

namespace Setting

variable (s : Setting)

def withLimits (limits : Limits) : Setting := { s with limits }

/-- Adds a constant with a numeric value. -/
def withConstant (name : String) (value : Float) : Setting :=
  { s with catalog := s.catalog.insertConstant name (.number (.real value)) }

/-- Adds a name of several letters that is not read as their product. -/
def withSymbol (name : String) : Setting :=
  { s with catalog := s.catalog.insertSymbol name }

/-- A text that cannot be read as a definition is reported as such, with its error as the cause. -/
def definitionError (text : String) : Error → Error
  | .unrecognized t p => .notADefinition text (.unrecognized t p)
  | .unexpected k l p => .notADefinition text (.unexpected k l p)
  | .unexpectedEnd p => .notADefinition text (.unexpectedEnd p)
  | e => e

/-- Reads a definition `name(parameters) = body` and adds its function, in the place of a function of the
same name. -/
def define (text : String) : Except Error (Function × Setting) := do
  let root ← (s.parse .definition text).result.mapError (definitionError text)
  match ← root.evaluate with
  | .function f => return (f, { s with catalog := s.catalog.insertFunction f })
  | _ => throw (.notCallable text)

/-- Reads an equation, an inequality, an interval or an expression. -/
def read (text : String) : Except Error Reading := do
  let parsed := s.parse .equation text
  return ⟨← parsed.result, parsed.variableNames⟩

/-- Reads an interval, with or without a set of numbers in front of it. -/
def readDomain (text : String) : Except Error Reading := do
  let reading ← s.read text
  match reading.root with
  | .interval .. => return reading
  | .setInterval .. => return reading
  | _ => throw (.invalidDomain text)

end Setting

/-- An equation with the definitions around it. -/
structure Problem where
  equation : String
  domain : Option String := none
  functions : List String := []
  constants : List (String × Float) := []
  limits : Limits := {}

/-- A problem after everything in it was read and evaluated. -/
structure Problem.Prepared where
  equation : Reading
  value : Value
  domain : Option Reading
  domainValue : Option Value

namespace Problem

variable (p : Problem)

/-- The setting of a problem: first the constants, then the definitions in their order. -/
def setting : Except Error Setting :=
  let start := p.constants.foldl (fun s (name, value) => s.withConstant name value)
    (Setting.withLimits {} p.limits)
  p.functions.foldlM (fun s text => do return (← s.define text).2) start

/-- Reads and evaluates the equation, and then the domain. -/
def prepare : Except Error Prepared := do
  let s ← p.setting
  let equation ← s.read p.equation
  let value ← equation.evaluate
  let domain ← p.domain.mapM s.readDomain
  let domainValue ← domain.mapM Reading.evaluate
  return ⟨equation, value, domain, domainValue⟩

end Problem

/-! ## Time limits -/

/-- How a job that runs by itself comes to an end. -/
inductive Ending (α : Type) where
  | answer (result : Except Error α)
  /-- The job died without an answer. -/
  | lost
  /-- The time was up first. -/
  | late

/-- The answer of a job that was given some time. -/
def Ending.await {α : Type} (limit : Text.Duration) : Ending α → Except Error α
  | answer result => result
  | lost => .error .workerLost
  | late => .error (.timedOut limit)

end Formula
