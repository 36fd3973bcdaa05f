/-!
# Positions in source text

Where a token or a phrase stands in the text: a line and a column, both counted from one, and the
half-open span between two positions. A column counts characters, so a Greek letter takes one column
like any other letter. `Cursor` keeps the byte offset and the position in step while text is consumed.
-/

namespace Formula.Text

/-- A line and a column, both counted from one. -/
structure Position where
  line : Nat := 1
  column : Nat := 1
deriving DecidableEq, Repr, Inhabited

namespace Position

/-- The position after the character `c` at `p`: a newline starts the next line. -/
def next (p : Position) (c : Char) : Position :=
  if c = '\n' then ⟨p.line + 1, 1⟩ else ⟨p.line, p.column + 1⟩

/-- The position after the characters `cs` that start at `p`. -/
def after (p : Position) (cs : List Char) : Position :=
  cs.foldl next p

/-- Positions are ordered by line, then by column. -/
def compare (p q : Position) : Ordering :=
  (Ord.compare p.line q.line).then (Ord.compare p.column q.column)

/-- The earlier of two positions. -/
def earlier (p q : Position) : Position :=
  if p.compare q = .gt then q else p

/-- The later of two positions. -/
def later (p q : Position) : Position :=
  if p.compare q = .gt then p else q

/-- A position is written as line and column with a colon between them. -/
def render (p : Position) : String :=
  toString p.line ++ ":" ++ toString p.column

end Position

/-- The text from `start` up to, and without, `stop`. -/
structure Span where
  start : Position := {}
  stop : Position := {}
deriving DecidableEq, Repr, Inhabited

namespace Span

/-- The smallest span that covers both. -/
def merge (s t : Span) : Span :=
  ⟨s.start.earlier t.start, s.stop.later t.stop⟩

/-- An empty span starts where it stops. -/
def isEmpty (s : Span) : Bool :=
  s.start == s.stop

/-- Spans are ordered by their starts, then by their ends. -/
def compare (s t : Span) : Ordering :=
  (s.start.compare t.start).then (s.stop.compare t.stop)

def render (s : Span) : String :=
  "span " ++ s.start.render ++ " to " ++ s.stop.render

end Span

/-- A place in a text: how many bytes were read and the position of the next character. -/
structure Cursor where
  offset : Nat := 0
  position : Position := {}
deriving DecidableEq, Repr, Inhabited

/-- Reads `text` and gives the span it covered with the cursor behind it. -/
def Cursor.advance (c : Cursor) (text : String) : Span × Cursor :=
  let stop := c.position.after text.toList
  (⟨c.position, stop⟩, ⟨c.offset + text.utf8ByteSize, stop⟩)

/-! ## Reading on

Reading two pieces one after the other is reading them together, so positions never depend on how the
text was cut. -/

theorem Position.after_append (p : Position) (xs ys : List Char) :
    p.after (xs ++ ys) = (p.after xs).after ys := by
  simp [Position.after, List.foldl_append]

end Formula.Text
