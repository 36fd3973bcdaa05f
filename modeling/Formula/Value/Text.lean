import Formula.Value.Arithmetic

/-!
# The text of values

Values are written with as few brackets as their binding strengths need. A term with a minus sign is
subtracted, a factor with a negative exponent goes below a fraction bar, and a factor of minus one becomes
a sign. Both changes rebuild a part of the value before it is written, so the text is produced with a
bound on the depth; rebuilding never makes a part deeper.
-/

namespace Formula.Value

/-! ## Depth -/

mutual

/-- How deep a value is nested. -/
def depth : Value → Nat
  | .sum ts => listDepth ts + 1
  | .product fs => listDepth fs + 1
  | .power a b => max a.depth b.depth + 1
  | .remainder a b => max a.depth b.depth + 1
  | .factorial a => a.depth + 1
  | .absolute a => a.depth + 1
  | .application _ args => listDepth args + 1
  | .relation _ a b => max a.depth b.depth + 1
  | .interval a b _ _ => max a.depth b.depth + 1
  | .intersection a b => max a.depth b.depth + 1
  | .limit _ a b => max a.depth b.depth + 1
  | .bigSum _ a b c => max (max a.depth b.depth) c.depth + 1
  | .bigProduct _ a b c => max (max a.depth b.depth) c.depth + 1
  | _ => 1

def listDepth : List Value → Nat
  | [] => 0
  | v :: vs => max v.depth (listDepth vs)

end

/-! ## Signs and fractions -/

/-- How tight the text of a value binds: relations not at all, then sums, products with negative numbers
and fractions, powers, and everything that needs no brackets. -/
def strength : Value → Nat
  | .relation .. => 0
  | .sum _ => 1
  | .product _ => 2
  | .number (.ratio n d) => if n < 0 ∨ d ≠ 1 then 2 else 4
  | .number (.real x) => if x < 0 then 2 else 4
  | .power .. => 3
  | _ => 4

/-- What is subtracted when a term with a minus sign is added. -/
def negated? : Value → Option Value
  | .number n => if n.isNegative then some (.number n.neg) else none
  | .product (.number c :: rest) =>
    if c.isNegative then some ((.number c.neg :: rest).foldl mul one) else none
  | _ => none

/-- A factor that belongs below the fraction bar, with its exponent made positive. -/
def inverted? : Value → Option Value
  | .power base (.number e) => if e.isNegative then some (pow base (.number e.neg)) else none
  | _ => none

/-- The sign of a product and the factors behind it. -/
def splitSign : List Value → String × List Value
  | .number c :: f :: rest =>
    if c == .minusOne then ("-", f :: rest) else ("", .number c :: f :: rest)
  | fs => ("", fs)

/-! ## Text -/

def bracketed (s : String) : String := "(" ++ s ++ ")"

def commaList (ss : List String) : String := ", ".intercalate ss

/-- The text of a value less than `fuel` deep. -/
def renderAt : Nat → Value → String
  | 0, _ => ""
  | fuel + 1, v =>
    let plain := renderAt fuel
    let child (least : Nat) (w : Value) : String :=
      if w.strength < least then bracketed (plain w) else plain w
    match v with
    | .number n => n.render
    | .bool true => "True"
    | .bool false => "False"
    | .symbol s => s
    | .constant c => c.name
    | .sum [] => ""
    | .sum (t :: ts) =>
      ts.foldl
        (fun text term =>
          match term.negated? with
          | some w => text ++ " - " ++ child 2 w
          | none => text ++ " + " ++ child 2 term)
        (child 1 t)
    | .product fs =>
      let (sign, fs) := splitSign fs
      let above := (fs.filter (·.inverted?.isNone)).map (child 3)
      let below := (fs.filterMap inverted?).map (child 3)
      let numerator := if above = [] then "1" else "*".intercalate above
      match below with
      | [] => sign ++ numerator
      | [d] => sign ++ numerator ++ "/" ++ d
      | ds => sign ++ numerator ++ "/" ++ bracketed ("*".intercalate ds)
    | .power a b => child 4 a ++ "^" ++ child 4 b
    | .remainder a b => "Mod(" ++ commaList [plain a, plain b] ++ ")"
    | .factorial a => child 4 a ++ "!"
    | .absolute a => "|" ++ plain a ++ "|"
    | .application name args => name ++ bracketed (commaList (args.map plain))
    | .relation op a b => child 1 a ++ " " ++ op.symbol ++ " " ++ child 1 b
    | .interval a b l r =>
      (if l then "(" else "[") ++ commaList [plain a, plain b] ++ (if r then ")" else "]")
    | .set s => s.name
    | .intersection a b => "Intersection(" ++ commaList [plain a, plain b] ++ ")"
    | .limit var approach body => "Limit(" ++ commaList [plain body, var, plain approach] ++ ")"
    | .bigSum var lower upper body =>
      "Sum(" ++ commaList [plain body, bracketed (commaList [var, plain lower, plain upper])] ++ ")"
    | .bigProduct var lower upper body =>
      "Product(" ++ commaList [plain body, bracketed (commaList [var, plain lower, plain upper])] ++
        ")"
    | .function f => f.name

/-- The text of a value. -/
def render (v : Value) : String := renderAt (v.depth + 1) v

end Formula.Value
