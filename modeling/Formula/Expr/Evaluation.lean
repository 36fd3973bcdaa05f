import Formula.Expr.Text

/-!
# Evaluation

The value of a tree, children first. A parameter of a definition shadows a constant of the same name, so
evaluation carries the names that are parameters around; a constant with one of these names is a symbol.
-/

namespace Formula.Expr

/-- The names of the parameters of a definition, or the first one that is not a name. -/
def parameterNames (function : String) : List Expr → Except Error (List String)
  | [] => .ok []
  | p :: ps =>
    match p.name? with
    | some name => return name :: (← parameterNames function ps)
    | none => .error (.invalidParameter function p.render)

/-- A call, with its error as an error of evaluation. -/
def callFunction (f : Function) (args : List Value) : Except Error Value :=
  (f.call args).mapError .arityMismatch

/-- Puts a function in front of the value it is applied to, or composes it with another function. -/
def applyFunction (f : Function) : Value → Except Error Value
  | .function g => .ok (.function (.composed f g))
  | v => callFunction f [v]

mutual

/-- The value of a tree inside definitions with the given parameters. -/
def evaluateIn (params : List String) : Expr → Except Error Value
  | .number _ value => .ok (.number value)
  | .variable name => .ok (.symbol name)
  | .constant name value => .ok (if params.contains name then .symbol name else value)
  | .function f => .ok (.function f)
  | .pos a => evaluateIn params a
  | .neg a => return (← evaluateIn params a).neg
  | .factorial a ceiling => do
    let v ← evaluateIn params a
    Limits.checkFactorial ceiling v
    return v.fact
  | .absolute a => return (← evaluateIn params a).abs
  | .binary op a b => return op.apply (← evaluateIn params a) (← evaluateIn params b)
  | .power a b ceiling => do
    let base ← evaluateIn params a
    let exponent ← evaluateIn params b
    Limits.checkExponent ceiling exponent
    return base.pow exponent
  | .compose f a => do
    match ← evaluateIn params f with
    | .function g => applyFunction g (← evaluateIn params a)
    | _ => .error (.notCallable f.render)
  | .relation op a b => return Value.relate op (← evaluateIn params a) (← evaluateIn params b)
  | .interval left a b right =>
    return Value.between (← evaluateIn params a) (← evaluateIn params b) (left = '(') (right = ')')
  | .setInterval set a => return Value.restrict (.set set) (← evaluateIn params a)
  | .definition name ps body => do
    let names ← parameterNames name ps
    let value ← evaluateIn (names ++ params) body
    return .function (.defined name (names.map .symbol) value)
  | .call f args => do callFunction f (← evaluateList params args)
  | .limit target a body =>
    return Value.limitOf target (← evaluateIn params a) (← evaluateIn params body)
  | .big op var a b body =>
    return Value.big op var (← evaluateIn params a) (← evaluateIn params b)
      (← evaluateIn params body)
  | .truth a => evaluateIn params a

/-- The values of a list of trees. -/
def evaluateList (params : List String) : List Expr → Except Error (List Value)
  | [] => .ok []
  | e :: es => return (← evaluateIn params e) :: (← evaluateList params es)

end

/-- The value of a tree. -/
def evaluate (e : Expr) : Except Error Value := evaluateIn [] e

/-! ## Checked nodes -/

/-- A literal, unless it is above the ceiling. -/
def checkedNumber (limits : Limits) (literal : String) (value : Number) : Except Error Expr := do
  limits.checkNumber literal value.toFloat
  return .number literal value

/-- A power, unless its exponent has a value above the ceiling. -/
def checkedPower (base exponent : Expr) (ceiling : Float) : Except Error Expr := do
  if let .ok value := exponent.evaluate then Limits.checkExponent ceiling value
  return .power base exponent ceiling

/-- A factorial, unless its operand has a value above the ceiling. -/
def checkedFactorial (operand : Expr) (ceiling : Float) : Except Error Expr := do
  if let .ok value := operand.evaluate then Limits.checkFactorial ceiling value
  return .factorial operand ceiling

/-! ## Truth values -/

/-- The truth value of a tree, if it has one. -/
def truthValue? (e : Expr) : Option Bool :=
  match e.evaluate with
  | .ok v => v.asBool?
  | .error _ => none

/-- A relation that has a truth value becomes a truth; every other tree stays as it is. -/
def classify (e : Expr) : Expr :=
  match e with
  | .relation .. => if e.truthValue?.isSome then .truth e else e
  | _ => e

/-- LaTeX, for the trees that have a fixed form there. -/
def latex? : Expr → Option String
  | .truth e => e.truthValue?.map fun b => if b then "\\text\x7bTrue\x7d" else "\\text\x7bFalse\x7d"
  | _ => none

end Formula.Expr
