import Formula.Expr.Basic

/-!
# The text of expressions

A tree is written as notation that reads back as the same tree. Every operand that is not an atom stands in
brackets, so the text never relies on precedence.
-/

namespace Formula.Expr

/-- A tree that never needs brackets. -/
def isAtom : Expr → Bool
  | .number .. => true
  | .variable _ => true
  | .constant .. => true
  | .function _ => true
  | .absolute _ => true
  | .call .. => true
  | _ => false

/-- The word in front of a big operator. -/
def bigWord : BigOperator → String
  | .sum => "sum"
  | .product => "prod"

/-- The text of an operand: in brackets unless it is an atom. -/
def operand (atom : Bool) (text : String) : String :=
  if atom then text else "(" ++ text ++ ")"

mutual

/-- The text of a tree, with brackets around every operand that is not an atom. -/
def render : Expr → String
  | .number literal _ => literal
  | .variable name => name
  | .constant name _ => name
  | .function f => f.name
  | .pos a => "+" ++ operand a.isAtom (render a)
  | .neg a => "-" ++ operand a.isAtom (render a)
  | .factorial a _ => operand a.isAtom (render a) ++ "!"
  | .absolute a => "|" ++ render a ++ "|"
  | .binary op a b =>
    operand a.isAtom (render a) ++ " " ++ op.symbol ++ " " ++ operand b.isAtom (render b)
  | .power a b _ => operand a.isAtom (render a) ++ "^" ++ operand b.isAtom (render b)
  | .compose f a => operand f.isAtom (render f) ++ "@" ++ operand a.isAtom (render a)
  | .relation op a b => render a ++ " " ++ op.symbol ++ " " ++ render b
  | .interval left a b right => left.toString ++ render a ++ ", " ++ render b ++ right.toString
  | .setInterval set a => set.letter ++ "|" ++ render a
  | .definition name params body => name ++ "(" ++ renderList params ++ ") = " ++ render body
  | .call f args => f.name ++ "(" ++ renderList args ++ ")"
  | .limit target approach body =>
    "lim_(" ++ target ++ " -> " ++ render approach ++ ") " ++ operand body.isAtom (render body)
  | .big op var lower upper body =>
    bigWord op ++ "_(" ++ var ++ " = " ++ render lower ++ ")^\x7b" ++ render upper ++ "\x7d " ++
      operand body.isAtom (render body)
  | .truth a => render a

/-- The texts of a list with commas between them. -/
def renderList : List Expr → String
  | [] => ""
  | [e] => render e
  | e :: es => render e ++ ", " ++ renderList es

end

end Formula.Expr
