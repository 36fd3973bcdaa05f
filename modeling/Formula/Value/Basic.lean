import Formula.Number.Basic

/-!
# Values

What notation evaluates to: a tree in which sums and products are flat lists, and everything that is not a
number stays symbolic. A function is data as well: a builtin that applies itself by name, a definition with
parameters and a body, or a composition of two functions.

The operations on values are in the modules beside this one; here are the types, the questions that only
look at a tree, and equality. Two doubles are equal when they compare equal, and two functions when their
names and numbers of arguments agree.
-/

namespace Formula

/-- Named constants. `complexInfinity` is the unsigned infinity that division by zero gives. -/
inductive Constant where
  | pi
  | e
  | i
  | goldenRatio
  | infinity
  | complexInfinity
deriving DecidableEq, Repr

namespace Constant

def name : Constant → String
  | pi => "pi"
  | e => "E"
  | i => "I"
  | goldenRatio => "GoldenRatio"
  | infinity => "oo"
  | complexInfinity => "zoo"

/-- The nearest double, if the constant is real. -/
def toFloat? : Constant → Option Float
  | pi => some 3.14159265358979323846
  | e => some 2.71828182845904523536
  | goldenRatio => some 1.618033988749895
  | infinity => some (1 / 0)
  | i => none
  | complexInfinity => none

end Constant

/-- The relations between two sides of an equation. -/
inductive Relation where
  | eq
  | ne
  | lt
  | le
  | gt
  | ge
deriving DecidableEq, Repr

namespace Relation

def symbol : Relation → String
  | eq => "="
  | ne => "!="
  | lt => "<"
  | le => "<="
  | gt => ">"
  | ge => ">="

/-- Whether the relation holds of two things in a given order. -/
def holds : Relation → Ordering → Bool
  | eq, o => o == .eq
  | ne, o => o != .eq
  | lt, o => o == .lt
  | le, o => o != .gt
  | gt, o => o == .gt
  | ge, o => o != .lt

end Relation

/-- The sets of numbers that an interval can be restricted to. `whole` begins with zero, `naturals` with
one. -/
inductive NumberSet where
  | complexes
  | reals
  | rationals
  | integers
  | whole
  | naturals
deriving DecidableEq, Repr

namespace NumberSet

def name : NumberSet → String
  | complexes => "Complexes"
  | reals => "Reals"
  | rationals => "Rationals"
  | integers => "Integers"
  | whole => "Naturals0"
  | naturals => "Naturals"

/-- The letter that stands for a set in notation. -/
def letter : NumberSet → String
  | complexes => "C"
  | reals => "R"
  | rationals => "Q"
  | integers => "Z"
  | whole => "W"
  | naturals => "N"

/-- The sets with the words for them, all in lower case. -/
def words : List (NumberSet × List String) :=
  [(complexes, ["complex", "complexes", "c"]), (reals, ["real", "reals", "r"]),
    (rationals, ["rational", "rationals", "q"]), (integers, ["integer", "integers", "z"]),
    (whole, ["whole", "wholes", "w"]), (naturals, ["natural", "naturals", "n"])]

/-- The set that a word names in any letter case. The words have ASCII letters only, and no letter outside
of ASCII has one of theirs as its lower case. -/
def ofName? (name : String) : Option NumberSet :=
  let name := String.ofList (name.toList.map Char.toLower)
  (words.find? (·.2.contains name)).map (·.1)

end NumberSet

/-- A function over values of type `α`. -/
inductive Callable (α : Type) where
  /-- A builtin and the least and greatest number of its arguments. -/
  | builtin (name : String) (least most : Nat)
  /-- A definition: what stands for the arguments, and the body. -/
  | defined (name : String) (params : List α) (body : α)
  /-- The function that feeds the result of `inner` to `outer`. -/
  | composed (outer inner : Callable α)
deriving Repr

namespace Callable

variable {α : Type}

def name : Callable α → String
  | builtin name _ _ => name
  | defined name _ _ => name
  | composed outer inner => outer.name ++ "@" ++ inner.name

/-- The least and the greatest number of arguments. -/
def arity : Callable α → Nat × Nat
  | builtin _ least most => (least, most)
  | defined _ params _ => (params.length, params.length)
  | composed _ inner => inner.arity

/-- The numbers of arguments in words. -/
def arityText (f : Callable α) : String :=
  let (least, most) := f.arity
  if least = most then toString least else toString least ++ " to " ++ toString most

/-- Whether the function takes `count` arguments. -/
def accepts (f : Callable α) (count : Nat) : Bool :=
  f.arity.1 ≤ count && count ≤ f.arity.2

/-- Functions are told apart by name and arity. -/
protected def beq (f g : Callable α) : Bool :=
  f.name == g.name && f.arity == g.arity

instance : BEq (Callable α) := ⟨Callable.beq⟩

end Callable

/-- A symbolic value. -/
inductive Value where
  | number (n : Number)
  | bool (b : Bool)
  | symbol (name : String)
  | constant (c : Constant)
  | sum (terms : List Value)
  | product (factors : List Value)
  | power (base exponent : Value)
  | remainder (left right : Value)
  | factorial (operand : Value)
  | absolute (operand : Value)
  /-- A builtin function applied to arguments it was not evaluated at. -/
  | application (name : String) (args : List Value)
  | relation (op : Relation) (left right : Value)
  | interval (lower upper : Value) (leftOpen rightOpen : Bool)
  | set (s : NumberSet)
  | intersection (left right : Value)
  | limit (var : String) (approach body : Value)
  | bigSum (var : String) (lower upper body : Value)
  | bigProduct (var : String) (lower upper body : Value)
  | function (f : Callable Value)
deriving Repr, Inhabited

/-- A function on values. -/
abbrev Function := Callable Value

namespace Value

def int (n : Int) : Value := .number (.ofInt n)

def zero : Value := int 0

def one : Value := int 1

/-! ## Parts of a value -/

def asNumber? : Value → Option Number
  | .number n => some n
  | _ => none

def asBool? : Value → Option Bool
  | .bool b => some b
  | _ => none

/-- The terms of a value seen as a sum. -/
def terms : Value → List Value
  | .sum ts => ts
  | v => [v]

/-- The factors of a value seen as a product. -/
def factors : Value → List Value
  | .product fs => fs
  | v => [v]

def isInfinite : Value → Bool
  | .constant .infinity => true
  | .constant .complexInfinity => true
  | _ => false

/-! ## Equality -/

mutual

/-- Equality of values: the same tree, with the equality of numbers and functions at the leaves. -/
protected def beq : Value → Value → Bool
  | .number a, .number b => a == b
  | .bool a, .bool b => a == b
  | .symbol a, .symbol b => a == b
  | .constant a, .constant b => a == b
  | .sum as, .sum bs => beqList as bs
  | .product as, .product bs => beqList as bs
  | .power a b, .power c d => a.beq c && b.beq d
  | .remainder a b, .remainder c d => a.beq c && b.beq d
  | .factorial a, .factorial b => a.beq b
  | .absolute a, .absolute b => a.beq b
  | .application f as, .application g bs => f == g && beqList as bs
  | .relation o a b, .relation p c d => o == p && a.beq c && b.beq d
  | .interval a b l r, .interval c d m s => a.beq c && b.beq d && l == m && r == s
  | .set a, .set b => a == b
  | .intersection a b, .intersection c d => a.beq c && b.beq d
  | .limit x a b, .limit y c d => x == y && a.beq c && b.beq d
  | .bigSum x a b c, .bigSum y d e f => x == y && a.beq d && b.beq e && c.beq f
  | .bigProduct x a b c, .bigProduct y d e f => x == y && a.beq d && b.beq e && c.beq f
  | .function f, .function g => f == g
  | _, _ => false

/-- Equality of two rows of values. -/
def beqList : List Value → List Value → Bool
  | [], [] => true
  | a :: as, b :: bs => a.beq b && beqList as bs
  | _, _ => false

end

instance : BEq Value := ⟨Value.beq⟩

/-! ## Symbols -/

mutual

/-- Whether a symbol occurs free. What a limit or a big operator binds is not free in its body. -/
def containsSymbol (name : String) : Value → Bool
  | .symbol s => s == name
  | .sum ts => listContainsSymbol name ts
  | .product fs => listContainsSymbol name fs
  | .power a b => a.containsSymbol name || b.containsSymbol name
  | .remainder a b => a.containsSymbol name || b.containsSymbol name
  | .factorial a => a.containsSymbol name
  | .absolute a => a.containsSymbol name
  | .application _ args => listContainsSymbol name args
  | .relation _ a b => a.containsSymbol name || b.containsSymbol name
  | .interval a b _ _ => a.containsSymbol name || b.containsSymbol name
  | .intersection a b => a.containsSymbol name || b.containsSymbol name
  | .limit var approach body =>
    approach.containsSymbol name || (var != name && body.containsSymbol name)
  | .bigSum var lower upper body =>
    lower.containsSymbol name || upper.containsSymbol name ||
      (var != name && body.containsSymbol name)
  | .bigProduct var lower upper body =>
    lower.containsSymbol name || upper.containsSymbol name ||
      (var != name && body.containsSymbol name)
  | _ => false

def listContainsSymbol (name : String) : List Value → Bool
  | [] => false
  | v :: vs => v.containsSymbol name || listContainsSymbol name vs

end

end Value

end Formula
