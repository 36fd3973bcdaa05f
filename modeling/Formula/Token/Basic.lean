import Formula.Expr.Basic

/-!
# Tokens

A token is what the text is cut into, and also what stands on the stack of the parser: a token of a
nonterminal carries the tree or the arguments that were read for it.
-/

namespace Formula

open Text (Position Span)

/-- What a token on the stack carries. -/
inductive Payload where
  | nothing
  | expr (e : Expr)
  | args (es : List Expr)

/-- A token with its source text and the span it covers. -/
structure Token where
  symbol : Symbol
  lexeme : String
  span : Span
  payload : Payload := .nothing

namespace Token

/-- Where the token starts. -/
def position (t : Token) : Position := t.span.start

/-- The token for the end of the input at a position. -/
def finish (position : Position) : Token :=
  ⟨.finish, "", ⟨position, position⟩, .nothing⟩

end Token

end Formula
