import Formula.Value.Arithmetic

/-!
# Substitution, limits and big operators

`replaceAll` puts values in the place of others, all at once, and folds the result again. A sum or product
over a range of integers is folded by substituting each of them in its body, so folding and substitution
need each other. To keep the recursion plain, `replaceWith` substitutes with a given way of folding, and
`foldAt` folds with a bound on the depth of big operators: a number in the place of a symbol never makes
a body deeper.
-/

namespace Formula

/-- The two operators that run over a range. -/
inductive BigOperator where
  | sum
  | product
deriving DecidableEq, Repr

namespace BigOperator

/-- The symbolic form. -/
def node : BigOperator → String → Value → Value → Value → Value
  | sum => .bigSum
  | product => .bigProduct

/-- The value over no numbers at all. -/
def unit : BigOperator → Value
  | sum => .zero
  | product => .one

def combine : BigOperator → Value → Value → Value
  | sum => Value.add
  | product => Value.mul

end BigOperator

namespace Value

/-- A limit, unless its variable does not occur in the body. -/
def limitOf (var : String) (approach body : Value) : Value :=
  if body.containsSymbol var then .limit var approach body else body

/-! ## Ranges -/

/-- A range of this many steps or more is not folded. -/
def longRange : Int := 1000

/-- The integers of a range, if both ends are integers and not too far apart. -/
def range? (lower upper : Value) : Option (List Int) := do
  let lo ← (← lower.asNumber?).toInt?
  let hi ← (← upper.asNumber?).toInt?
  if (← Int128.sub? hi lo) < longRange then
    some ((List.range (hi + 1 - lo).toNat).map fun (k : Nat) => lo + k)
  else none

/-! ## Replacing -/

/-- The first replacement for a value. -/
def replacement? (pairs : List (Value × Value)) (v : Value) : Option Value :=
  (pairs.find? (·.1 == v)).map (·.2)

/-- The replacements that remain where a variable is bound. -/
def withoutSymbol (var : String) (pairs : List (Value × Value)) : List (Value × Value) :=
  pairs.filter fun
    | (.symbol s, _) => s != var
    | _ => true

/-- A way to build a big operator from a variable, two ends and a body. -/
abbrev Folding := BigOperator → String → Value → Value → Value → Value

mutual

/-- Replaces values by others and builds the result anew. Bound variables stay in their bodies. -/
def replaceWith (fold : Folding) (pairs : List (Value × Value)) (v : Value) : Value :=
  match replacement? pairs v with
  | some w => w
  | none =>
    match v with
    | .sum ts => (replaceList fold pairs ts).foldl add zero
    | .product fs => (replaceList fold pairs fs).foldl mul one
    | .power a b => pow (replaceWith fold pairs a) (replaceWith fold pairs b)
    | .remainder a b => mod (replaceWith fold pairs a) (replaceWith fold pairs b)
    | .factorial a => fact (replaceWith fold pairs a)
    | .absolute a => abs (replaceWith fold pairs a)
    | .application name args => apply name (replaceList fold pairs args)
    | .relation op a b => relate op (replaceWith fold pairs a) (replaceWith fold pairs b)
    | .interval a b l r => between (replaceWith fold pairs a) (replaceWith fold pairs b) l r
    | .intersection a b => restrict (replaceWith fold pairs a) (replaceWith fold pairs b)
    | .limit var approach body =>
      limitOf var (replaceWith fold pairs approach)
        (replaceWith fold (withoutSymbol var pairs) body)
    | .bigSum var lower upper body =>
      fold .sum var (replaceWith fold pairs lower) (replaceWith fold pairs upper)
        (replaceWith fold (withoutSymbol var pairs) body)
    | .bigProduct var lower upper body =>
      fold .product var (replaceWith fold pairs lower) (replaceWith fold pairs upper)
        (replaceWith fold (withoutSymbol var pairs) body)
    | v => v
termination_by structural v

def replaceList (fold : Folding) (pairs : List (Value × Value)) : List Value → List Value
  | [] => []
  | v :: vs => replaceWith fold pairs v :: replaceList fold pairs vs
termination_by structural vs => vs

end

/-! ## Big operators -/

mutual

/-- How deep big operators are nested in a value. -/
def bigDepth : Value → Nat
  | .sum ts => listBigDepth ts
  | .product fs => listBigDepth fs
  | .power a b => max a.bigDepth b.bigDepth
  | .remainder a b => max a.bigDepth b.bigDepth
  | .factorial a => a.bigDepth
  | .absolute a => a.bigDepth
  | .application _ args => listBigDepth args
  | .relation _ a b => max a.bigDepth b.bigDepth
  | .interval a b _ _ => max a.bigDepth b.bigDepth
  | .intersection a b => max a.bigDepth b.bigDepth
  | .limit _ a b => max a.bigDepth b.bigDepth
  | .bigSum _ a b body => max (max a.bigDepth b.bigDepth) (body.bigDepth + 1)
  | .bigProduct _ a b body => max (max a.bigDepth b.bigDepth) (body.bigDepth + 1)
  | _ => 0

def listBigDepth : List Value → Nat
  | [] => 0
  | v :: vs => max v.bigDepth (listBigDepth vs)

end

/-- Folds a big operator whose body has less than the given depth of big operators. Over a short range of
integers the body is taken at each of them; otherwise the operator stays symbolic. -/
def foldAt : Nat → Folding
  | 0, op, var, lower, upper, body => op.node var lower upper body
  | depth + 1, op, var, lower, upper, body =>
    match range? lower upper with
    | none => op.node var lower upper body
    | some ks =>
      ks.foldl
        (fun acc k => op.combine acc (replaceWith (foldAt depth) [(.symbol var, .int k)] body))
        op.unit

/-- A sum or product over a range. -/
def big (op : BigOperator) (var : String) (lower upper body : Value) : Value :=
  foldAt (body.bigDepth + 1) op var lower upper body

/-- Replaces all values that occur as the first of a pair by the second, at once. -/
def replaceAll (v : Value) (pairs : List (Value × Value)) : Value :=
  replaceWith big pairs v

/-- Puts a value in the place of a symbol. -/
def subst (v : Value) (name : String) (w : Value) : Value :=
  v.replaceAll [(.symbol name, w)]

end Value

/-! ## Calls -/

/-- A call with a number of arguments that the function does not take. -/
structure ArityMismatch where
  name : String
  expected : String
  found : Nat
deriving DecidableEq, Repr

namespace Callable

/-- Refuses a number of arguments that the function does not take. -/
def checkArity (f : Function) (found : Nat) : Except ArityMismatch Unit :=
  if f.accepts found then .ok () else .error ⟨f.name, f.arityText, found⟩

/-- The value of a function at arguments. A definition replaces its parameters in its body. -/
def call (f : Function) (args : List Value) : Except ArityMismatch Value := do
  f.checkArity args.length
  match f with
  | .builtin name _ _ => return Value.apply name args
  | .defined _ params body => return body.replaceAll (params.zip args)
  | .composed outer inner => outer.call [← inner.call args]

end Callable

end Formula
