import Formula.Pattern.Longest
import Formula.Token.Basic

/-!
# From text to tokens

The lexical rules of the notation. At each place the longest match of a rule is taken, so no rule depends on
its place in the list. A maximal run of Latin and Greek letters is an identifier unless it is a keyword, and
one character may stand for two tokens: `≤` reads as `<` and `=`.
-/

namespace Formula

open Text (Position)

namespace Lexer

/-- What a piece of text is read as. -/
inductive Piece where
  | blank
  | number
  | word
  | token (s : Symbol)
  | pair (first second : Symbol)
deriving DecidableEq, Repr

/-! ## Patterns -/

def blanks : Pattern := .atLeastOne (.one ⟨[.blank], false⟩)

def digit : Pattern := .one ⟨[.range '0' '9'], false⟩

/-- Digits with an optional point among them or behind them, or a point and digits. -/
def numeral : Pattern :=
  .alt
    (.seq (.atLeastOne digit) (.optional (.seq (.char '.') (.star digit))))
    (.seq (.char '.') (.atLeastOne digit))

def letter : Pattern :=
  .one ⟨[.range 'a' 'z', .range 'A' 'Z', .range 'α' 'ω', .range 'Α' 'Ω'], false⟩

/-- The lexical rules. -/
def rules : List (Pattern × Piece) :=
  [(blanks, .blank),
    (numeral, .number),
    (.atLeastOne letter, .word),
    (.char '+', .token .plus),
    (.char '-', .token .minus),
    (.char '*', .token .times),
    (.char '/', .token .divide),
    (.char '%', .token .modulo),
    (.char '^', .token .power),
    (.char '!', .token .factorial),
    (.char '_', .token .subscript),
    (.char '=', .token .equal),
    (.alt (.text "!=") (.char '≠'), .token .notEqual),
    (.char '<', .token .less),
    (.char '>', .token .greater),
    (.char ',', .token .comma),
    (.char '|', .token .bar),
    (.char '(', .token .leftParen),
    (.char ')', .token .rightParen),
    (.char '[', .token .leftBracket),
    (.char ']', .token .rightBracket),
    (.char '\x7b', .token .leftBrace),
    (.char '\x7d', .token .rightBrace),
    (.alt (.text "->") (.char '→'), .token .arrow),
    (.char '@', .token .compose),
    (.char '∑', .token .sum),
    (.char '∏', .token .product),
    (.char '≤', .pair .less .equal),
    (.char '≥', .pair .greater .equal)]

def patterns : List Pattern := rules.map (·.1)

/-- The keywords among the words. -/
def keyword? (word : String) : Option Symbol :=
  match word with
  | "lim" => some .limit
  | "sum" => some .sum
  | "Σ" => some .sum
  | "prod" => some .product
  | "Π" => some .product
  | _ => none

/-- The kinds of the tokens that a lexeme stands for. -/
def symbols (lexeme : String) : Piece → List Symbol
  | .blank => []
  | .number => [.number]
  | .word => [(keyword? lexeme).getD .identifier]
  | .token s => [s]
  | .pair first second => [first, second]

/-! ## Scanning -/

/-- The tokens of a text, up to the error that ended them if there was one. -/
structure Scan where
  tokens : List Token
  failure : Option Error := none

/-- The next nonempty piece of a text, and what it is read as. -/
def piece? (text : List Char) : Option (Nat × Piece) := do
  let m ← Pattern.longest patterns text
  let (_, piece) ← rules[m.pattern]?
  if m.length = 0 then none else some (m.length, piece)

/-- Cuts a text that starts at a position into at most `fuel` pieces. -/
def scan : Nat → Position → List Char → Scan
  | _, position, [] => ⟨[.finish position], none⟩
  | 0, position, _ => ⟨[.finish position], none⟩
  | fuel + 1, position, c :: cs =>
    match piece? (c :: cs) with
    | none => ⟨[], some (.unrecognized (String.ofList [c]) position)⟩
    | some (length, piece) =>
      let text := (c :: cs).take length
      let lexeme := String.ofList text
      let stop := position.after text
      let tokens := (symbols lexeme piece).map fun s => ⟨s, lexeme, ⟨position, stop⟩, .nothing⟩
      let rest := scan fuel stop ((c :: cs).drop length)
      ⟨tokens ++ rest.tokens, rest.failure⟩

section

-- so that the next piece is not computed when the scan is unfolded
attribute [local irreducible] piece?

/-- One piece of a scan. -/
theorem scan_succ (fuel : Nat) (position : Position) (c : Char) (cs : List Char) :
    scan (fuel + 1) position (c :: cs) =
      match piece? (c :: cs) with
      | none => ⟨[], some (.unrecognized (String.ofList [c]) position)⟩
      | some (length, piece) =>
        let text := (c :: cs).take length
        let rest := scan fuel (position.after text) ((c :: cs).drop length)
        ⟨(symbols (String.ofList text) piece).map (fun s =>
            ⟨s, String.ofList text, ⟨position, position.after text⟩, .nothing⟩) ++ rest.tokens, rest.failure⟩ := rfl

end

end Lexer

/-- The tokens of a text. Each piece takes a character at least, so there are no more pieces than
characters. -/
def tokenize (text : String) : Lexer.Scan :=
  Lexer.scan text.toList.length {} text.toList

end Formula
