import Formula.Limits

/-!
# Expressions

The tree that a parsed text stands for: expressions, equations, intervals and definitions alike. Two trees
are equal when they have the same shape and equal numbers, values and functions at the same places.

Powers and factorials carry the ceiling they were parsed under. Evaluation checks the exponent or the operand
against it, as far as that is a number by then; a variable in its place passes.
-/

namespace Formula

/-- The arithmetic operators between two operands. -/
inductive Operator where
  | add
  | sub
  | mul
  | div
  | mod
deriving DecidableEq, Repr

namespace Operator

def symbol : Operator → String
  | add => "+"
  | sub => "-"
  | mul => "*"
  | div => "/"
  | mod => "%"

def apply : Operator → Value → Value → Value
  | add => Value.add
  | sub => Value.sub
  | mul => Value.mul
  | div => Value.div
  | mod => Value.mod

end Operator

/-- A syntax tree. -/
inductive Expr where
  | number (literal : String) (value : Number)
  | variable (name : String)
  | constant (name : String) (value : Value)
  /-- A function by itself, as the operand of a composition. -/
  | function (f : Function)
  | pos (operand : Expr)
  | neg (operand : Expr)
  | factorial (operand : Expr) (ceiling : Float)
  | absolute (operand : Expr)
  | binary (op : Operator) (left right : Expr)
  | power (base exponent : Expr) (ceiling : Float)
  /-- A function applied to a value, or composed with another function. -/
  | compose (function argument : Expr)
  | relation (op : Relation) (left right : Expr)
  /-- An interval with the brackets it was written with; a round one is open. -/
  | interval (left : Char) (lower upper : Expr) (right : Char)
  | setInterval (set : NumberSet) (interval : Expr)
  | definition (name : String) (params : List Expr) (body : Expr)
  | call (f : Function) (args : List Expr)
  | limit (target : String) (approach body : Expr)
  | big (op : BigOperator) (var : String) (lower upper body : Expr)
  /-- A relation as a whole text that has a truth value. -/
  | truth (relation : Expr)
deriving Repr, Inhabited

namespace Expr

/-- The name of a variable or a constant, the only trees that can be parameters. -/
def name? : Expr → Option String
  | .variable name => some name
  | .constant name _ => some name
  | _ => none

/-! ## Equality -/

mutual

/-- Equality of trees, with the equality of numbers, values and functions at the leaves. -/
protected def beq : Expr → Expr → Bool
  | .number a x, .number b y => a == b && x == y
  | .variable a, .variable b => a == b
  | .constant a v, .constant b w => a == b && v == w
  | .function f, .function g => f == g
  | .pos a, .pos b => a.beq b
  | .neg a, .neg b => a.beq b
  | .factorial a x, .factorial b y => a.beq b && x == y
  | .absolute a, .absolute b => a.beq b
  | .binary o a b, .binary p c d => o == p && a.beq c && b.beq d
  | .power a b x, .power c d y => a.beq c && b.beq d && x == y
  | .compose a b, .compose c d => a.beq c && b.beq d
  | .relation o a b, .relation p c d => o == p && a.beq c && b.beq d
  | .interval l a b r, .interval m c d s => l == m && a.beq c && b.beq d && r == s
  | .setInterval s a, .setInterval t b => s == t && a.beq b
  | .definition f ps a, .definition g qs b => f == g && beqList ps qs && a.beq b
  | .call f as, .call g bs => f == g && beqList as bs
  | .limit x a b, .limit y c d => x == y && a.beq c && b.beq d
  | .big o x a b c, .big p y d e f => o == p && x == y && a.beq d && b.beq e && c.beq f
  | .truth a, .truth b => a.beq b
  | _, _ => false

def beqList : List Expr → List Expr → Bool
  | [], [] => true
  | a :: as, b :: bs => a.beq b && beqList as bs
  | _, _ => false

end

instance : BEq Expr := ⟨Expr.beq⟩

end Expr

end Formula
