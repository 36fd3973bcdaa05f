import Mathlib.Data.List.TakeWhile
import Formula.Expr.Names
import Formula.Proofs.Token.Spelling
import Formula.Rule

/-!
# Writing a tree

`Expr.lexemes` writes a tree with an operator between every two operands, bars around an absolute value, and
parentheses only where the levels of precedence need them: an operand stands bare when its level is at least the
one that its place asks for. `Plain` are the trees that can be written so: numbers with the literal they were read
from, variables that the rules for identifiers read as themselves, and calls of known functions with as many
arguments as they take. What is written are tokens that are told apart without blanks (`Plain.orderly`).
-/

namespace Formula

open Pattern (Matches In)

/-! ## Levels -/

/-- The level of an operator. -/
def Operator.level : Operator → Nat
  | add | sub => Rule.sumLevel
  | mul | div | mod => Rule.productLevel

/-- The token of an operator. -/
def Operator.token : Operator → Symbol
  | add => .plus
  | sub => .minus
  | mul => .times
  | div => .divide
  | mod => .modulo

/-- The tokens of a relation. -/
def Relation.tokens : Relation → List Symbol
  | eq => [.equal]
  | ne => [.notEqual]
  | lt => [.less]
  | le => [.less, .equal]
  | gt => [.greater]
  | ge => [.greater, .equal]

/-- The token of a big operator. -/
def BigOperator.token : BigOperator → Symbol
  | sum => .sum
  | product => .product

/-- The level of what is one piece: a number, a name, a call, or something in brackets or bars. -/
def Expr.atomLevel : Nat := Rule.factorialLevel + 1

/-- The level of the operation that a tree makes last. -/
def Expr.level : Expr → Nat
  | .binary op _ _ => op.level
  | .pos _ | .neg _ => Rule.signLevel
  | .power .. => Rule.powerLevel
  | .factorial .. => Rule.factorialLevel
  | _ => atomLevel

/-! ## Lexemes of a tree -/

namespace Lexeme

/-- The marks that trees are written with. -/
def marks : List Symbol :=
  [.plus, .minus, .times, .divide, .modulo, .power, .factorial, .subscript, .comma, .bar, .leftParen, .rightParen]

/-- A mark in the text. -/
def mark : Symbol → Lexeme
  | .plus => ⟨.plus, "+"⟩
  | .minus => ⟨.minus, "-"⟩
  | .times => ⟨.times, "*"⟩
  | .divide => ⟨.divide, "/"⟩
  | .modulo => ⟨.modulo, "%"⟩
  | .power => ⟨.power, "^"⟩
  | .factorial => ⟨.factorial, "!"⟩
  | .subscript => ⟨.subscript, "_"⟩
  | .comma => ⟨.comma, ","⟩
  | .bar => ⟨.bar, "|"⟩
  | .leftParen => ⟨.leftParen, "("⟩
  | .rightParen => ⟨.rightParen, ")"⟩
  | s => ⟨s, ""⟩

/-- An operand in its place: in parentheses, unless its level is at least the one that the place asks for. -/
def placed (least level : Nat) (ls : List Lexeme) : List Lexeme :=
  if least ≤ level then ls else mark .leftParen :: (ls ++ [mark .rightParen])

/-- A subscript: a number if it begins like one, otherwise a name. -/
def subscript (text : List Char) : Lexeme :=
  if text.head?.any fun c => c.isDigit || c == '.' then ⟨.number, String.ofList text⟩
  else ⟨.identifier, String.ofList text⟩

/-- The name of a variable, with its subscript if it has one. -/
def ofName (name : String) : List Lexeme :=
  match name.toList.dropWhile (· != '_') with
  | [] => [⟨.identifier, name⟩]
  | _ :: sub =>
    [⟨.identifier, String.ofList (name.toList.takeWhile (· != '_'))⟩, mark .subscript, subscript sub]

end Lexeme

namespace Expr

open Lexeme (mark placed)

mutual

/-- A tree with the fewest parentheses. -/
def lexemes : Expr → List Lexeme
  | .number literal _ => [⟨.number, literal⟩]
  | .variable name => Lexeme.ofName name
  | .absolute a => mark .bar :: (a.lexemes ++ [mark .bar])
  | .call f args =>
    ⟨.identifier, f.name⟩ :: mark .leftParen ::
      ([mark .comma].intercalate (lexemesOf args) ++ [mark .rightParen])
  | .pos a => mark .plus :: placed Rule.signLevel a.level a.lexemes
  | .neg a => mark .minus :: placed Rule.signLevel a.level a.lexemes
  | .factorial a _ => placed Rule.factorialLevel a.level a.lexemes ++ [mark .factorial]
  | .binary op a b =>
    placed op.level a.level a.lexemes ++ mark op.token :: placed (op.level + 1) b.level b.lexemes
  | .power a b _ =>
    placed (Rule.powerLevel + 1) a.level a.lexemes ++
      mark .power :: placed Rule.powerLevel b.level b.lexemes
  | _ => []

def lexemesOf : List Expr → List (List Lexeme)
  | [] => []
  | e :: es => e.lexemes :: lexemesOf es

end

end Expr

/-! ## Plain trees -/

/-- A word that is an identifier. -/
structure IsWord (word : String) : Prop where
  letters : Matches (.atLeastOne Lexer.letter) word.toList
  noKeyword : Lexer.keyword? word = none

instance (word : String) : Decidable (IsWord word) :=
  decidable_of_iff (Matches (.atLeastOne Lexer.letter) word.toList ∧ Lexer.keyword? word = none)
    ⟨fun ⟨hl, hk⟩ => ⟨hl, hk⟩, fun ⟨hl, hk⟩ => ⟨hl, hk⟩⟩

/-- A number as the text writes it. -/
def IsNumeral (text : String) : Prop := Matches Lexer.numeral text.toList

instance (text : String) : Decidable (IsNumeral text) :=
  inferInstanceAs (Decidable (Matches Lexer.numeral text.toList))

/-- What an identifier is read as. -/
def Setting.resolve (s : Setting) (name : String) (subscript : Option String) : Expr :=
  (Setting.productOf (s.letters name subscript)).getD (.variable name)

/-- Names that are read as the variable of that name. -/
inductive Setting.Resolves (s : Setting) : String → Prop where
  | word {name : String} (hw : IsWord name) (h : s.resolve name none = .variable name) : Resolves s name
  | subscript {base sub : String} (hb : IsWord base) (hs : IsWord sub ∨ IsNumeral sub)
      (h : s.resolve base (some sub) = .variable (base ++ "_" ++ sub)) : Resolves s (base ++ "_" ++ sub)

/-- The trees that can be written down and read again. -/
inductive Expr.Plain (s : Setting) : Expr → Prop where
  | number {literal : String} {value : Number} (hn : IsNumeral literal)
      (hv : Number.ofLiteral? literal = some value) : Plain s (.number literal value)
  | name {name : String} (h : s.Resolves name) : Plain s (.variable name)
  | absolute {a : Expr} (ha : Plain s a) : Plain s (.absolute a)
  | call {f : Function} {args : List Expr} (hw : IsWord f.name) (hf : s.catalog.function? f.name = some f)
      (hn : f.accepts args.length = true) (ha : ∀ a ∈ args, Plain s a) : Plain s (.call f args)
  | pos {a : Expr} (ha : Plain s a) : Plain s (.pos a)
  | neg {a : Expr} (ha : Plain s a) : Plain s (.neg a)
  | factorial {a : Expr} (ha : Plain s a) : Plain s (.factorial a s.limits.factorial)
  | binary {op : Operator} {a b : Expr} (ha : Plain s a) (hb : Plain s b) : Plain s (.binary op a b)
  | power {a b : Expr} (ha : Plain s a) (hb : Plain s b) : Plain s (.power a b s.limits.exponent)

/-! ## The text of a plain tree -/

namespace Lexeme

/-- The kinds of tokens that trees are written with. -/
def kinds : List Symbol := .number :: .identifier :: marks

/-- Tokens of these kinds that are told apart without blanks. -/
structure Orderly (ls : List Lexeme) : Prop where
  legal : ∀ l ∈ ls, l.Legal
  kinds : ∀ l ∈ ls, l.symbol ∈ Lexeme.kinds
  apart : ls.IsChain Apart

theorem mark_symbol {s : Symbol} (hs : s ∈ marks) : (mark s).symbol = s := by
  have hall : ∀ s ∈ marks, (mark s).symbol = s := by decide
  exact hall s hs

theorem mark_legal {s : Symbol} (hs : s ∈ marks) : (mark s).Legal := by
  simp only [marks, List.mem_cons, List.not_mem_nil, or_false] at hs
  rcases hs with rfl | rfl | rfl | rfl | rfl | rfl | rfl | rfl | rfl | rfl | rfl | rfl <;>
    exact ⟨.one rfl, rfl⟩

/-- A mark is not read on with its neighbours. -/
theorem mark_apart {s : Symbol} (hs : s ∈ marks) {l : Lexeme} (hl : l.symbol ∈ kinds) :
    Apart (mark s) l ∧ Apart l (mark s) := by
  have hall : ∀ s ∈ marks, ∀ t ∈ kinds,
      Lexer.parts (Lexer.patternOf (Lexer.pieceOf s)) (Lexer.patternOf (Lexer.pieceOf t)) = true ∧
      Lexer.parts (Lexer.patternOf (Lexer.pieceOf t)) (Lexer.patternOf (Lexer.pieceOf s)) = true := by
    decide +kernel
  have := hall s hs l.symbol hl
  unfold Apart pattern
  rwa [mark_symbol hs]

namespace Orderly

theorem nil : Orderly [] := ⟨by simp, by simp, .nil⟩

theorem singleton {l : Lexeme} (hl : l.Legal) (hk : l.symbol ∈ Lexeme.kinds) : Orderly [l] :=
  ⟨by simpa using hl, by simpa using hk, .singleton l⟩

/-- A mark between two rows. -/
theorem join {ls ls' : List Lexeme} (h : Orderly ls) {s : Symbol} (hs : s ∈ marks) (h' : Orderly ls') :
    Orderly (ls ++ mark s :: ls') where
  legal l hl := by
    rcases List.mem_append.mp hl with hl | hl
    · exact h.legal l hl
    · rcases List.mem_cons.mp hl with rfl | hl
      · exact mark_legal hs
      · exact h'.legal l hl
  kinds l hl := by
    rcases List.mem_append.mp hl with hl | hl
    · exact h.kinds l hl
    · rcases List.mem_cons.mp hl with rfl | hl
      · rw [mark_symbol hs]
        exact List.mem_cons_of_mem _ (List.mem_cons_of_mem _ hs)
      · exact h'.kinds l hl
  apart := by
    refine h.apart.append (h'.apart.cons fun l hl => ?_) fun l hl l' hl' => ?_
    · exact (mark_apart hs (h'.kinds l (List.mem_of_mem_head? hl))).1
    · obtain rfl : mark s = l' := by simpa using hl'
      exact (mark_apart hs (h.kinds l (List.mem_of_mem_getLast? hl))).2

/-- A mark in front of a row, or behind it. -/
theorem mark_cons {ls : List Lexeme} {s : Symbol} (hs : s ∈ marks) (h : Orderly ls) :
    Orderly (mark s :: ls) := nil.join hs h

theorem append_mark {ls : List Lexeme} (h : Orderly ls) {s : Symbol} (hs : s ∈ marks) :
    Orderly (ls ++ [mark s]) := h.join hs nil

theorem placed {ls : List Lexeme} (h : Orderly ls) (least level : Nat) :
    Orderly (Lexeme.placed least level ls) := by
  unfold Lexeme.placed
  split
  · exact h
  · exact mark_cons (by decide) (h.append_mark (by decide))

theorem intercalate {rows : List (List Lexeme)} (h : ∀ ls ∈ rows, Orderly ls) :
    Orderly ([mark .comma].intercalate rows) := by
  induction rows with
  | nil => exact nil
  | cons ls rows ih =>
    have hrows := ih fun ls' hl => h ls' (List.mem_cons_of_mem ls hl)
    have hls := h ls List.mem_cons_self
    cases rows with
    | nil => simpa using hls
    | cons ls' rows =>
      rw [List.intercalate_cons_cons, List.append_assoc]
      exact hls.join (by decide) hrows

end Orderly

end Lexeme

/-! ## Names -/

section

variable {word text : String}

theorem IsWord.orderly (h : IsWord word) : Lexeme.Orderly [⟨.identifier, word⟩] := by
  refine .singleton ⟨h.letters, ?_⟩ (List.mem_cons_of_mem _ List.mem_cons_self)
  show [(Lexer.keyword? word).getD .identifier] = _
  rw [h.noKeyword]
  rfl

theorem IsNumeral.orderly (h : IsNumeral text) : Lexeme.Orderly [⟨.number, text⟩] :=
  .singleton ⟨h, rfl⟩ List.mem_cons_self

theorem IsWord.ne_nil (h : IsWord word) : word.toList ≠ [] :=
  Lexer.ne_nil_of_matches (a := .word) (by decide) h.letters

theorem IsNumeral.ne_nil (h : IsNumeral text) : text.toList ≠ [] :=
  Lexer.ne_nil_of_matches (a := .number) (by decide) h

/-- All characters of a word are letters. -/
theorem IsWord.letter_of_mem (h : IsWord word) : ∀ c ∈ word.toList, In Lexer.letter.heads c := by
  intro c hc
  have hwithin := h.letters.within
  obtain ⟨d, ds, hw⟩ := List.exists_cons_of_ne_nil h.ne_nil
  rw [hw] at hc hwithin
  rcases List.mem_cons.mp hc with rfl | hc
  · exact hwithin.head c rfl
  · exact (hwithin.tail c hc).mono (by decide)

end

namespace Lexeme

theorem contains_digit (c : Char) : CharSet.contains ⟨[.range '0' '9'], false⟩ c = c.isDigit := by
  simp [CharSet.contains, CharItem.contains, Char.isDigit, Char.le_def]

theorem contains_char (c d : Char) : CharSet.contains ⟨[.range d d], false⟩ c = (c == d) := by
  rw [Bool.eq_iff_iff]
  simp only [CharSet.contains, CharItem.contains, List.any_cons, List.any_nil, Bool.or_false,
    Bool.bne_false, Bool.and_eq_true, decide_eq_true_eq, beq_iff_eq]
  constructor
  · intro h
    exact Char.le_antisymm h.2 h.1
  · rintro rfl
    exact ⟨Char.le_refl c, Char.le_refl c⟩

/-- A letter is no digit, no point and no underscore. -/
theorem not_of_letter {c : Char} (h : In Lexer.letter.heads c) :
    (c.isDigit || c == '.') = false ∧ (c != '_') = true := by
  obtain ⟨s, hs, hc⟩ := h
  obtain rfl := List.mem_singleton.mp hs
  have hdigit := CharSet.not_contains_of_apart (t := ⟨[.range '0' '9'], false⟩) (by decide) hc
  have hpoint := CharSet.not_contains_of_apart (t := ⟨[.range '.' '.'], false⟩) (by decide) hc
  have hscore := CharSet.not_contains_of_apart (t := ⟨[.range '_' '_'], false⟩) (by decide) hc
  rw [contains_digit] at hdigit
  rw [contains_char] at hpoint hscore
  rw [hdigit, hpoint, bne, hscore]
  exact ⟨rfl, rfl⟩

theorem subscript_of_isNumeral {sub : String} (h : IsNumeral sub) :
    subscript sub.toList = ⟨.number, sub⟩ := by
  obtain ⟨c, cs, hsub⟩ := List.exists_cons_of_ne_nil h.ne_nil
  have hhead : (c.isDigit || c == '.') = true := by
    have hin := (Matches.within h).head c (by rw [hsub]; rfl)
    obtain ⟨s, hs, hc⟩ := hin
    have hs : s = ⟨[.range '0' '9'], false⟩ ∨ s = ⟨[.range '.' '.'], false⟩ := by
      simpa [Lexer.numeral, Lexer.digit, Pattern.heads, Pattern.atLeastOne, Pattern.char, Pattern.nullable]
        using hs
    rcases hs with rfl | rfl
    · rw [← contains_digit, hc, Bool.true_or]
    · rw [← contains_char, hc, Bool.or_true]
  rw [subscript, if_pos (by rw [hsub]; exact hhead), String.ofList_toList]

theorem subscript_of_isWord {sub : String} (h : IsWord sub) :
    subscript sub.toList = ⟨.identifier, sub⟩ := by
  obtain ⟨c, cs, hsub⟩ := List.exists_cons_of_ne_nil h.ne_nil
  have hhead := (not_of_letter (h.letter_of_mem c (by rw [hsub]; exact List.mem_cons_self))).1
  rw [subscript, if_neg (by rw [hsub]; simpa using hhead), String.ofList_toList]

theorem ofName_of_isWord {name : String} (h : IsWord name) : ofName name = [⟨.identifier, name⟩] := by
  have hdrop : name.toList.dropWhile (· != '_') = [] :=
    List.dropWhile_eq_nil_iff.mpr fun c hc => (not_of_letter (h.letter_of_mem c hc)).2
  rw [ofName, hdrop]

theorem ofName_subscript {base sub : String} (h : IsWord base) :
    ofName (base ++ "_" ++ sub) = [⟨.identifier, base⟩, mark .subscript, subscript sub.toList] := by
  have hbase : ∀ c ∈ base.toList, (c != '_') = true := fun c hc => (not_of_letter (h.letter_of_mem c hc)).2
  have hname : (base ++ "_" ++ sub).toList = base.toList ++ '_' :: sub.toList := by simp
  rw [ofName, hname, List.dropWhile_append_of_pos hbase, List.takeWhile_append_of_pos hbase]
  simp

end Lexeme

namespace Expr

theorem lexemesOf_eq_map (es : List Expr) : lexemesOf es = es.map lexemes := by
  induction es with
  | nil => rfl
  | cons e es ih => rw [lexemesOf, ih, List.map_cons]

open Lexeme (Orderly)

/-- A plain tree is written with tokens that are told apart without blanks. -/
theorem Plain.orderly {s : Setting} {e : Expr} (h : Plain s e) : Orderly e.lexemes := by
  induction h with
  | number hn _ =>
    rw [lexemes]
    exact hn.orderly
  | name h =>
    rw [lexemes]
    cases h with
    | word hw _ =>
      rw [Lexeme.ofName_of_isWord hw]
      exact hw.orderly
    | subscript hb hs _ =>
      rw [Lexeme.ofName_subscript hb]
      refine hb.orderly.join (by decide) ?_
      rcases hs with hs | hs
      · rw [Lexeme.subscript_of_isWord hs]
        exact hs.orderly
      · rw [Lexeme.subscript_of_isNumeral hs]
        exact hs.orderly
  | absolute _ ih =>
    rw [lexemes]
    exact .mark_cons (by decide) (ih.append_mark (by decide))
  | @call f args hw _ _ _ ih =>
    rw [lexemes, lexemesOf_eq_map]
    have hrows : ∀ ls ∈ args.map lexemes, Orderly ls := by simpa using ih
    exact hw.orderly.join (by decide) ((Orderly.intercalate hrows).append_mark (by decide))
  | pos _ ih =>
    rw [lexemes]
    exact .mark_cons (by decide) (ih.placed _ _)
  | neg _ ih =>
    rw [lexemes]
    exact .mark_cons (by decide) (ih.placed _ _)
  | factorial _ ih =>
    rw [lexemes]
    exact (ih.placed _ _).append_mark (by decide)
  | @binary op _ _ _ _ iha ihb =>
    rw [lexemes]
    have htoken : op.token ∈ Lexeme.marks := by cases op <;> decide
    exact (iha.placed _ _).join htoken (ihb.placed _ _)
  | power _ _ iha ihb =>
    rw [lexemes]
    exact (iha.placed _ _).join (by decide) (ihb.placed _ _)

end Expr

end Formula
