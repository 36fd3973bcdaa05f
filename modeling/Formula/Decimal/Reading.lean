/-!
# Reading decimal numbers

`readInt?` reads an integer: an optional sign and at least one digit. `readFloat?` reads a double: an
optional sign, digits with an optional point and an optional exponent, or one of the words for infinity
and not-a-number in any letter case. The result is the double nearest to the number that is written.
Nothing else may stand in the text, blanks and digit separators included.
-/

namespace Formula.Decimal

/-- An ASCII digit. -/
def isDigit (c : Char) : Bool :=
  '0' ≤ c && c ≤ '9'

/-- The number that a row of digits stands for. -/
def natOfDigits (cs : List Char) : Nat :=
  cs.foldl (fun n c => 10 * n + (c.toNat - '0'.toNat)) 0

/-- Splits off an optional sign; `true` stands for minus. -/
def takeSign : List Char → Bool × List Char
  | '-' :: cs => (true, cs)
  | '+' :: cs => (false, cs)
  | cs => (false, cs)

/-- A nonempty row of digits and nothing else. -/
def readNat? (cs : List Char) : Option Nat :=
  if cs ≠ [] ∧ cs.all isDigit then some (natOfDigits cs) else none

/-- An optional sign and at least one digit. -/
def readInt? (cs : List Char) : Option Int :=
  let (negative, digits) := takeSign cs
  (readNat? digits).map fun n => if negative then -(n : Int) else n

/-- The double nearest to `m · 10 ^ e`. What lies far beyond the range of doubles is cut off first. -/
def nearest (m : Nat) (e : Int) : Float :=
  let places := ((Nat.toDigits 10 m).length : Int) + e
  if m = 0 ∨ places < -400 then 0
  else if 400 < places then 1 / 0
  else Float.ofScientific m (e < 0) e.natAbs

/-- Infinity or not-a-number. -/
def readWord? (cs : List Char) : Option Float :=
  let word := String.ofList (cs.map Char.toLower)
  if word = "inf" ∨ word = "infinity" then some (1 / 0)
  else if word = "nan" then some (0 / 0)
  else none

/-- What may stand behind the digits: nothing, or an exponent. -/
def readExponent? : List Char → Option Int
  | [] => some 0
  | c :: cs => if c = 'e' ∨ c = 'E' then readInt? cs else none

/-- An unsigned number: digits with an optional point, at least one digit in all, and an exponent. -/
def readMagnitude? (cs : List Char) : Option Float :=
  let whole := cs.takeWhile isDigit
  let rest := cs.dropWhile isDigit
  let (places, rest) := match rest with
    | '.' :: more => (more.takeWhile isDigit, more.dropWhile isDigit)
    | _ => ([], rest)
  if whole = [] ∧ places = [] then readWord? cs
  else (readExponent? rest).map fun e => nearest (natOfDigits (whole ++ places)) (e - places.length)

/-- A double: an optional sign and a magnitude. -/
def readFloat? (cs : List Char) : Option Float :=
  let (negative, magnitude) := takeSign cs
  (readMagnitude? magnitude).map fun x => if negative then -x else x

end Formula.Decimal
