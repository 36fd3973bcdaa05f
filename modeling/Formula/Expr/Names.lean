import Formula.Catalog
import Formula.Expr.Evaluation
import Formula.Token.Basic

/-!
# What names and numbers stand for

The rules by which the parser reads identifiers, literals and calls. An identifier is one name if it is a
single letter, a known constant or symbol, or the name of a Greek letter; otherwise it is the product of its
letters. A name with arguments is a call if it is a known function, and otherwise a factor in front of its
one argument.

The parser remembers the variables that it met, in order and with repeats. It remembers them also when it
fails, so `Build` carries them beside the result.
-/

namespace Formula

/-- The names and the limits that a text is read with. -/
structure Setting where
  catalog : Catalog := .builtin
  limits : Limits := {}

/-- A result or an error, and the variables met so far. -/
abbrev Build := ExceptT Error (StateM (List String))

/-- A result or an error that meets no variables. -/
def Build.ofExcept {α : Type} (e : Except Error α) : Build α := fun names => (e, names)

namespace Setting

variable (s : Setting)

/-- A single name. A subscript makes it a variable; without one it may be a constant. -/
def letter (name : String) : Option String → Expr
  | some subscript => .variable (name ++ "_" ++ subscript)
  | none =>
    match s.catalog.constant? name with
    | some value => .constant name value
    | none => .variable name

/-- An identifier that is one name. -/
def isWhole (name : String) : Bool :=
  name.length == 1 || (s.catalog.constant? name).isSome || s.catalog.isSymbol name ||
    Catalog.isGreekName name

/-- The names that an identifier stands for. A subscript belongs to the last one. -/
def letters (name : String) (subscript : Option String) : List Expr :=
  if s.isWhole name then [s.letter name subscript]
  else
    let singles := name.toList.map fun c => String.ofList [c]
    match singles.reverse with
    | [] => []
    | last :: before => before.reverse.map (s.letter · none) ++ [s.letter last subscript]

/-- The product of some trees. -/
def productOf : List Expr → Option Expr
  | [] => none
  | e :: es => some (es.foldl (.binary .mul) e)

/-- The name of a variable. -/
def variableName? : Expr → Option String
  | .variable name => some name
  | _ => none

/-- Reads an identifier and remembers its variables. -/
def identifier (name : String) (subscript : Option String) : Build Expr := do
  let letters := s.letters name subscript
  modify (· ++ letters.filterMap variableName?)
  return (productOf letters).getD (.variable name)

/-- Reads a literal. -/
def number (t : Token) : Build Expr :=
  match Number.ofLiteral? t.lexeme with
  | none => throw (.unrecognized t.lexeme t.position)
  | some value => .ofExcept (Expr.checkedNumber s.limits t.lexeme value)

/-- Reads a subscript as the first argument of a call. -/
def leadingArgument (t : Token) : Build Expr :=
  match t.symbol with
  | .number => s.number t
  | _ => s.identifier t.lexeme none

/-- A name with arguments behind it. The subscript of a function is its first argument. -/
def call (name : String) (subscript : Option Token) (args : List Expr) : Build Expr :=
  match s.catalog.function? name with
  | some f => do
    let args ← match subscript with
      | some t => do pure ((← s.leadingArgument t) :: args)
      | none => pure args
    match f.checkArity args.length with
    | .ok () => return .call f args
    | .error mismatch => throw (.arityMismatch mismatch)
  | none =>
    match args with
    | [arg] => do
      let factor ← s.identifier name (subscript.map (·.lexeme))
      return .binary .mul factor arg
    | args => throw (.invalidCall name args.length)

end Setting

end Formula
