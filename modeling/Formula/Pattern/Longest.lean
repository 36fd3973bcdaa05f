import Formula.Pattern.Basic

/-!
# Longest matches

Several patterns are tried at once on the front of a text. The longest match wins, and between matches of
one length the pattern that comes first. All patterns advance together, one character at a time, and those
of which nothing is left drop out, so the text is read no further than the longest match needs.
-/

namespace Formula

/-- A match: the number of the pattern and the number of characters it covers. -/
structure Match where
  pattern : Nat
  length : Nat
deriving DecidableEq, Repr

namespace Pattern

/-- What is left of the numbered patterns after some characters. -/
abbrev Front := List (Nat × List Pattern)

/-- All patterns before the first character. -/
def Front.start (ps : List Pattern) : Front :=
  ps.zipIdx.map fun (p, i) => (i, [p])

/-- The front after one more character, without the patterns that can no longer match. -/
def Front.advance (front : Front) (c : Char) : Front :=
  front.filterMap fun (i, left) =>
    match (left.flatMap (steps c)).eraseDups with
    | [] => none
    | left => some (i, left)

/-- The first pattern that matches what was read. -/
def Front.accepted? (front : Front) : Option Nat :=
  (front.find? fun (_, left) => left.any nullable).map (·.1)

/-- The longest match, given the best one before the text and the number of characters read so far. -/
def Front.longest (front : Front) (best : Option Match) (read : Nat) : List Char → Option Match
  | [] => (front.accepted?.map (⟨·, read⟩)) <|> best
  | c :: cs =>
    let best := (front.accepted?.map (⟨·, read⟩)) <|> best
    match front.advance c with
    | [] => best
    | front => front.longest best (read + 1) cs

/-- The longest match of some pattern at the front of a text. -/
def longest (ps : List Pattern) (text : List Char) : Option Match :=
  (Front.start ps).longest none 0 text

/-! ## Offsets in bytes -/

/-- The number of bytes that the characters take in UTF-8. -/
def byteLength : List Char → Nat
  | [] => 0
  | c :: cs => c.utf8Size + byteLength cs

/-- The text from a byte offset on. Beyond the end nothing is left, and between the bytes of one character
nothing that a pattern could read. -/
def fromByte : Nat → List Char → List Char
  | 0, cs => cs
  | _, [] => []
  | n + 1, c :: cs => if c.utf8Size ≤ n + 1 then fromByte (n + 1 - c.utf8Size) cs else []

/-- The longest match at a byte offset, with its length in bytes. -/
def longestAt (ps : List Pattern) (text : List Char) (offset : Nat) : Option Match :=
  let rest := fromByte offset text
  (longest ps rest).map fun m => ⟨m.pattern, byteLength (rest.take m.length)⟩

end Pattern

end Formula
