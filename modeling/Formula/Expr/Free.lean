import Formula.Expr.Basic

/-!
# Free symbols

The variables of a tree that no limit, big operator or definition binds. Binders reach into bodies only: the
point a limit approaches and the ends of a range are outside of it.
-/

namespace Formula.Expr

/-- Adds a name to a list unless it is there already. -/
def insertName (names : List String) (name : String) : List String :=
  if names.contains name then names else names ++ [name]

mutual

/-- Adds the variables of a tree that are not bound to those found before. -/
def collectFree (bound : List String) (found : List String) : Expr → List String
  | .variable name => if bound.contains name then found else insertName found name
  | .number .. => found
  | .constant .. => found
  | .function _ => found
  | .pos a => collectFree bound found a
  | .neg a => collectFree bound found a
  | .factorial a _ => collectFree bound found a
  | .absolute a => collectFree bound found a
  | .binary _ a b => collectFree bound (collectFree bound found a) b
  | .power a b _ => collectFree bound (collectFree bound found a) b
  | .compose a b => collectFree bound (collectFree bound found a) b
  | .relation _ a b => collectFree bound (collectFree bound found a) b
  | .interval _ a b _ => collectFree bound (collectFree bound found a) b
  | .setInterval _ a => collectFree bound found a
  | .definition _ params body => collectFree (params.filterMap name? ++ bound) found body
  | .call _ args => collectFreeList bound found args
  | .limit target approach body =>
    collectFree (target :: bound) (collectFree bound found approach) body
  | .big _ var lower upper body =>
    collectFree (var :: bound) (collectFree bound (collectFree bound found lower) upper) body
  | .truth a => collectFree bound found a

def collectFreeList (bound : List String) (found : List String) : List Expr → List String
  | [] => found
  | e :: es => collectFreeList bound (collectFree bound found e) es

end

/-- The variables that no limit, big operator or definition binds, each once, in the order of the text. -/
def freeSymbols (e : Expr) : List String := collectFree [] [] e

end Formula.Expr
