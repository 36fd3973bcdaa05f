import Formula.Decimal.Reading
import Formula.Pattern.Basic

/-!
# Written patterns

`Pattern.read?` reads the usual notation for patterns: characters that stand for themselves, `.` for any
character but a newline, classes in square brackets with ranges and an optional `^`, groups in round
brackets, `|` between alternatives, and the repetitions `*`, `+`, `?`, `{m}`, `{m,}` and `{m,n}`, each with
an optional `?` behind it that changes nothing. A backslash takes the meaning from the punctuation behind
it; `\s` is white space. The text is first cut into pieces, and the pieces are then put together with a
stack of open groups.
-/

namespace Formula.Pattern

/-- A piece of a written pattern. -/
inductive Piece where
  | set (s : CharSet)
  | opening
  | closing
  | bar
  | times (least : Nat) (most : Option Nat)
deriving DecidableEq, Repr

/-- The item behind a backslash. -/
def escaped? (c : Char) : Option CharItem :=
  let char (d : Char) : Option CharItem := some (.range d d)
  match c with
  | 's' => some .blank
  | 'n' => char '\n'
  | 't' => char '\t'
  | 'r' => char '\r'
  | 'f' => char '\x0c'
  | 'v' => char '\x0b'
  | 'a' => char '\x07'
  | c => if c.toNat < 128 ∧ ¬ c.isAlphanum ∧ c ≠ '<' ∧ c ≠ '>' then char c else none

/-- One item of a class, without looking for a range. -/
def classItem? : List Char → Option (CharItem × List Char)
  | '\\' :: c :: cs => (escaped? c).map (·, cs)
  | '\\' :: [] => none
  | '[' :: _ => none
  | c :: cs => some (.range c c, cs)
  | [] => none

/-- The range between two items of a class. Only characters bound a range, and not in reverse. -/
def rangeItem? : CharItem → CharItem → Option CharItem
  | .range first _, .range last _ => if last < first then none else some (.range first last)
  | _, _ => none

/-- The next item or range of a class. A `-` in front of the closing bracket, or of another one, stands for
itself. -/
def classRange? (cs : List Char) : Option (CharItem × List Char) := do
  let (item, rest) ← classItem? cs
  match rest with
  | '-' :: d :: more =>
    if d = ']' ∨ d = '-' then return (item, rest)
    else
      let (last, rest) ← classItem? (d :: more)
      return (← rangeItem? item last, rest)
  | _ => return (item, rest)

/-- The items of a class up to the closing bracket, and what follows. The first argument bounds their
number. -/
def classItems? : Nat → List Char → Option (List CharItem × List Char)
  | 0, _ => none
  | _, ']' :: cs => some ([], cs)
  | n + 1, cs => do
    let (item, rest) ← classRange? cs
    let (items, rest) ← classItems? n rest
    return (item :: items, rest)

/-- A class behind its opening bracket. A `]` in the first place stands for itself. -/
def class? (cs : List Char) : Option (CharSet × List Char) := do
  let negated := cs.head? == some '^'
  let cs := if negated then cs.drop 1 else cs
  let first := cs.head? == some ']'
  let (items, rest) ← classItems? (cs.length + 1) (if first then cs.drop 1 else cs)
  return (⟨if first then .range ']' ']' :: items else items, negated⟩, rest)

/-- A number and what follows it. -/
def number? (cs : List Char) : Option (Nat × List Char) :=
  (Decimal.readNat? (cs.takeWhile Decimal.isDigit)).map (·, cs.dropWhile Decimal.isDigit)

/-- A counted repetition behind its opening brace. -/
def counted? (cs : List Char) : Option (Piece × List Char) := do
  let (least, rest) ← number? cs
  match rest with
  | '\x7d' :: rest => return (.times least (some least), rest)
  | ',' :: '\x7d' :: rest => return (.times least none, rest)
  | ',' :: rest =>
    let (most, rest) ← number? rest
    match rest with
    | '\x7d' :: rest => if least ≤ most then return (.times least (some most), rest) else none
    | _ => none
  | _ => none

/-- The piece at the front of a nonempty text. -/
def piece? : List Char → Option (Piece × List Char)
  | '(' :: '?' :: ':' :: cs => some (.opening, cs)
  | '(' :: cs => some (.opening, cs)
  | ')' :: cs => some (.closing, cs)
  | '|' :: cs => some (.bar, cs)
  | '*' :: cs => some (.times 0 none, cs)
  | '+' :: cs => some (.times 1 none, cs)
  | '?' :: cs => some (.times 0 (some 1), cs)
  | '\x7b' :: cs => counted? cs
  | '[' :: cs => (class? cs).map fun (s, rest) => (.set s, rest)
  | '.' :: cs => some (.set ⟨[.range '\n' '\n'], true⟩, cs)
  | '\\' :: c :: cs => (escaped? c).map fun item => (.set ⟨[item], false⟩, cs)
  | '\\' :: [] => none
  | '^' :: _ => none
  | '$' :: _ => none
  | c :: cs => some (.set ⟨[.range c c], false⟩, cs)
  | [] => none

/-- All pieces of a text. A `?` behind a repetition belongs to it. The first argument bounds the number of
pieces; a piece takes a character at least. -/
def pieces? : Nat → List Char → Option (List Piece)
  | _, [] => some []
  | 0, _ => none
  | n + 1, cs => do
    let (p, rest) ← piece? cs
    let rest := match p, rest with
      | .times .., '?' :: more => more
      | _, _ => rest
    return p :: (← pieces? n rest)

/-- A group under construction: the alternatives that are complete, and the items of the last one, most
recent first. -/
structure Group where
  branches : List Pattern := []
  items : List Pattern := []

/-- The pattern of a group. -/
def Group.pattern (g : Group) : Pattern :=
  oneOf (g.branches ++ [row g.items.reverse])

/-- Puts the pieces together, given the group under construction and the open groups around it. -/
def assemble? : List Piece → Group → List Group → Option Pattern
  | [], g, [] => some g.pattern
  | [], _, _ :: _ => none
  | .set s :: ps, g, outer => assemble? ps { g with items := .one s :: g.items } outer
  | .opening :: ps, g, outer => assemble? ps {} (g :: outer)
  | .closing :: _, _, [] => none
  | .closing :: ps, g, h :: outer => assemble? ps { h with items := g.pattern :: h.items } outer
  | .bar :: ps, g, outer =>
    assemble? ps { branches := g.branches ++ [row g.items.reverse] } outer
  | .times least most :: ps, g, outer =>
    match g.items with
    | [] => none
    | p :: items => assemble? ps { g with items := p.times least most :: items } outer

/-- The pattern that a text writes down, if it is one. -/
def read? (text : String) : Option Pattern := do
  let ps ← pieces? text.toList.length text.toList
  assemble? ps {} []

end Formula.Pattern
