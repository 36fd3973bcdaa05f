import Mathlib.Data.List.TakeWhile
import Mathlib.Data.Nat.Digits.Lemmas
import Formula.Proofs.Number.Lowest
import Formula.Proofs.Token.Layout

/-!
# Literals

The rule for numbers and the reader of literals describe the same texts: digits with a point among them, in front of
them, behind them, or with none (`Numeral`). What the rule matches is the text of a numeral (`matches_numeral_iff`),
and the reader gives its value for it: the fraction in lowest terms if the digits and the power of ten for the places
fit, and otherwise a double (`Numeral.ofLiteral?_eq`). So every token that is a number has a value
(`exists_numeral_of_tokenize`).
-/

namespace Formula

open Int128 (InRange fit_eq_some_iff fit_eq_none_iff)
open Pattern (Matches)

/-- A number in decimal notation: digits, and digits behind a point if there is one. -/
structure Numeral where
  whole : List Char
  behind : Option (List Char)
  digits : ∀ c ∈ whole ++ behind.getD [], Decimal.isDigit c = true
  ne_nil : whole ++ behind.getD [] ≠ []

namespace Numeral

/-- The digits behind the point. -/
def places (n : Numeral) : List Char := n.behind.getD []

/-- How the number is written. -/
def text (n : Numeral) : List Char := n.whole ++ n.behind.elim [] ('.' :: ·)

/-- The natural number that the digits stand for without the point. -/
def coefficient (n : Numeral) : Nat :=
  Nat.ofDigits 10 ((n.whole ++ n.places).reverse.map fun c => c.toNat - '0'.toNat)

/-- The number that is written. -/
def value (n : Numeral) : ℚ := n.coefficient / 10 ^ n.places.length

end Numeral

/-! ## Texts that the rule matches -/

namespace Pattern

theorem matches_star_one_iff {s : CharSet} {text : List Char} :
    Matches (.star (.one s)) text ↔ ∀ c ∈ text, s.contains c = true := by
  constructor
  · intro h
    generalize hp : Pattern.star (.one s) = p at h
    induction h with
    | done => exact List.forall_mem_nil _
    | more hone _ _ ih =>
      cases hp
      cases hone with
      | one hc => exact List.forall_mem_cons.mpr ⟨hc, ih rfl⟩
    | _ => cases hp
  · intro h
    induction text with
    | nil => exact .done
    | cons c text ih =>
      obtain ⟨hc, htext⟩ := List.forall_mem_cons.mp h
      exact .more (.one hc) (ih htext)

theorem matches_atLeastOne_iff {s : CharSet} {text : List Char} :
    Matches (.atLeastOne (.one s)) text ↔ text ≠ [] ∧ ∀ c ∈ text, s.contains c = true := by
  refine ⟨fun h => ?_, fun ⟨hne, h⟩ => matches_atLeastOne hne h⟩
  cases h with
  | seq hone hstar =>
    cases hone with
    | one hc => exact ⟨List.cons_ne_nil _ _, List.forall_mem_cons.mpr ⟨hc, matches_star_one_iff.mp hstar⟩⟩

end Pattern

namespace Lexer

theorem contains_digit_eq (c : Char) : CharSet.contains ⟨[.range '0' '9'], false⟩ c = Decimal.isDigit c := by
  simp [CharSet.contains, CharItem.contains, Decimal.isDigit]

theorem matches_point : Matches (.char '.') ['.'] := .one rfl

/-- The rule for numbers matches numerals and nothing else. -/
theorem matches_numeral_iff {text : List Char} : Matches numeral text ↔ ∃ n : Numeral, n.text = text := by
  have hdigits : ∀ {xs : List Char}, Matches (.star digit) xs ↔ ∀ c ∈ xs, Decimal.isDigit c = true := by
    simp only [digit, Pattern.matches_star_one_iff, contains_digit_eq, implies_true]
  have hsome : ∀ {xs : List Char}, Matches (.atLeastOne digit) xs ↔ xs ≠ [] ∧ ∀ c ∈ xs, Decimal.isDigit c = true := by
    simp only [digit, Pattern.matches_atLeastOne_iff, contains_digit_eq, implies_true]
  have hpoint : ∀ {xs : List Char}, Matches (.char '.') xs → xs = ['.'] :=
    fun h => Pattern.eq_singleton_of_sole? rfl h
  constructor
  · intro h
    cases h with
    | left h =>
      cases h with
      | @seq _ _ whole _ hwhole hrest =>
        obtain ⟨hne, hwhole⟩ := hsome.mp hwhole
        cases hrest with
        | left hrest =>
          cases hrest with
          | @seq _ _ _ places hp hplaces =>
            rw [hpoint hp]
            refine ⟨⟨whole, some places, List.forall_mem_append.mpr ⟨hwhole, hdigits.mp hplaces⟩, ?_⟩, rfl⟩
            exact List.append_ne_nil_of_left_ne_nil hne _
        | right hrest =>
          cases hrest
          exact ⟨⟨whole, none, by simpa using hwhole, by simpa using hne⟩, rfl⟩
    | right h =>
      cases h with
      | @seq _ _ _ places hp hplaces =>
        rw [hpoint hp]
        obtain ⟨hne, hplaces⟩ := hsome.mp hplaces
        exact ⟨⟨[], some places, hplaces, hne⟩, rfl⟩
  · rintro ⟨⟨whole, behind, hdigit, hne⟩, rfl⟩
    obtain ⟨hwhole, hplaces⟩ := List.forall_mem_append.mp hdigit
    cases behind with
    | none => exact .left (.seq (hsome.mpr ⟨by simpa using hne, hwhole⟩) (.right .empty))
    | some places =>
      by_cases h0 : whole = []
      · subst h0
        have hmatches : Matches (.seq (.char '.') (.atLeastOne digit)) (['.'] ++ places) :=
          .seq matches_point (hsome.mpr ⟨hne, hplaces⟩)
        exact .right hmatches
      · exact .left (.seq (hsome.mpr ⟨h0, hwhole⟩) (.left (.seq matches_point (hdigits.mpr hplaces))))

end Lexer

/-! ## What the reader makes of them -/

namespace Decimal

theorem natOfDigits_eq (cs : List Char) :
    natOfDigits cs = Nat.ofDigits 10 (cs.reverse.map fun c => c.toNat - '0'.toNat) := by
  rw [Nat.ofDigits_eq_foldr, List.foldr_map, List.foldr_reverse, natOfDigits]
  congr 1
  funext n c
  exact Nat.add_comm _ _

/-- A digit or a point is no sign. -/
theorem takeSign_eq {cs : List Char} (h : ∀ c ∈ cs, isDigit c = true ∨ c = '.') : takeSign cs = (false, cs) := by
  unfold takeSign
  split
  · exact absurd (h _ List.mem_cons_self) (by decide)
  · exact absurd (h _ List.mem_cons_self) (by decide)
  · rfl

end Decimal

namespace Numeral

open Decimal (isDigit takeSign_eq)

theorem ne_point {c : Char} (h : isDigit c = true) : c ≠ '.' := by
  rintro rfl
  exact absurd h (by decide)

variable (n : Numeral)

theorem digit_of_mem_whole {c : Char} (hc : c ∈ n.whole) : isDigit c = true :=
  n.digits c (List.mem_append_left _ hc)

theorem digit_of_mem_places {c : Char} (hc : c ∈ n.places) : isDigit c = true :=
  n.digits c (List.mem_append_right _ hc)

/-- The point, or the end, is where the digits in front of it stop. -/
theorem cut_text {p : Char → Bool} (hp : ∀ c ∈ n.whole, p c = true) (hpoint : p '.' = false) :
    n.text.takeWhile p = n.whole ∧ n.text.dropWhile p = n.behind.elim [] ('.' :: ·) := by
  rw [text, List.takeWhile_append_of_pos hp, List.dropWhile_append_of_pos hp]
  cases n.behind with
  | none => simp
  | some places => simp [hpoint]

theorem readInt?_eq : Decimal.readInt? (n.whole ++ n.places) = some (n.coefficient : Int) := by
  have hsign : Decimal.takeSign (n.whole ++ n.places) = (false, n.whole ++ n.places) :=
    takeSign_eq fun c hc => .inl (n.digits c hc)
  have hnat : Decimal.readNat? (n.whole ++ n.places) = some n.coefficient := by
    rw [Decimal.readNat?, if_pos ⟨n.ne_nil, List.all_eq_true.mpr n.digits⟩, Decimal.natOfDigits_eq]
    rfl
  unfold Decimal.readInt?
  rw [hsign]
  dsimp only
  rw [hnat]
  rfl

theorem readFloat?_eq :
    Decimal.readFloat? n.text = some (Decimal.nearest n.coefficient (-(n.places.length : Int))) := by
  have hsign : Decimal.takeSign n.text = (false, n.text) := by
    refine takeSign_eq fun c hc => ?_
    rcases List.mem_append.mp hc with hc | hc
    · exact .inl (n.digit_of_mem_whole hc)
    · cases hb : n.behind with
      | none => simp [hb] at hc
      | some places =>
        rw [hb, Option.elim_some, List.mem_cons] at hc
        exact hc.symm.imp_left fun hc => n.digit_of_mem_places (by rwa [Numeral.places, hb])
  obtain ⟨htake, hdrop⟩ := n.cut_text (p := isDigit) (fun _ => n.digit_of_mem_whole) (by decide)
  have hmagnitude : Decimal.readMagnitude? n.text =
      some (Decimal.nearest n.coefficient (-(n.places.length : Int))) := by
    have hne : ¬ (n.whole = [] ∧ n.places = []) := mt List.append_eq_nil_iff.mpr n.ne_nil
    have hall : ∀ c ∈ n.places, isDigit c = true := fun c => n.digit_of_mem_places
    rw [coefficient, ← Decimal.natOfDigits_eq]
    unfold Decimal.readMagnitude?
    rw [htake, hdrop]
    cases hb : n.behind with
    | none =>
      obtain hplaces : n.places = [] := by rw [Numeral.places, hb, Option.getD_none]
      rw [hplaces] at hne ⊢
      dsimp only [Option.elim_none]
      rw [if_neg hne]
      rfl
    | some places =>
      obtain rfl : n.places = places := by rw [Numeral.places, hb, Option.getD_some]
      change (if n.whole = [] ∧ n.places.takeWhile isDigit = [] then _ else
        (Decimal.readExponent? (n.places.dropWhile isDigit)).map fun e =>
          Decimal.nearest (Decimal.natOfDigits (n.whole ++ n.places.takeWhile isDigit))
            (e - (n.places.takeWhile isDigit).length)) = _
      rw [List.takeWhile_eq_self_iff.mpr hall, List.dropWhile_eq_nil_iff.mpr hall, if_neg hne]
      exact congrArg some (congrArg _ (Int.zero_sub _))
  unfold Decimal.readFloat?
  rw [hsign]
  dsimp only
  rw [hmagnitude]
  rfl

/-- A numeral is read as the fraction it stands for, if its digits and the power of ten for its places fit, and as a
double otherwise. -/
theorem ofLiteral?_eq {literal : String} (h : literal.toList = n.text) :
    Number.ofLiteral? literal =
      if InRange n.coefficient ∧ InRange (10 ^ n.places.length) then some (.ratio n.value.num n.value.den)
      else some (.real (Decimal.nearest n.coefficient (-(n.places.length : Int)))) := by
  obtain ⟨htake, hdrop⟩ := n.cut_text (p := (· ≠ '.'))
    (fun c hc => decide_eq_true (ne_point (n.digit_of_mem_whole hc))) (by decide)
  have hplaces : (n.behind.elim [] ('.' :: ·)).drop 1 = n.places := by
    rw [places]
    cases n.behind <;> rfl
  have hne : n.whole ++ n.places ≠ [] := n.ne_nil
  unfold Number.ofLiteral?
  rw [h]
  dsimp only
  rw [htake, hdrop, hplaces, if_neg hne, n.readInt?_eq, n.readFloat?_eq, Word.pow?_eq_fit]
  by_cases hc : InRange n.coefficient
  · rw [Option.bind_eq_bind, Option.bind_some, fit_eq_some_iff.mpr ⟨hc, rfl⟩]
    by_cases hp : InRange (10 ^ n.places.length)
    · have hpos : (0 : Int) < 10 ^ n.places.length := Int.pow_pos (by decide)
      have hvalue : ((n.coefficient : Int) : ℚ) / (10 ^ n.places.length : Int) = n.value := by
        rw [value]
        push_cast
        rfl
      rw [if_pos ⟨hc, hp⟩, fit_eq_some_iff.mpr ⟨hp, rfl⟩, ← hvalue]
      exact congrArg (· <|> _) (Number.ratio?_of_pos hc hp hpos)
    · rw [if_neg fun h => hp h.2, fit_eq_none_iff.mpr hp]
      rfl
  · rw [if_neg fun h => hc h.1, Option.bind_eq_bind, Option.bind_some, fit_eq_none_iff.mpr hc]
    rfl

end Numeral

/-! ## Tokens -/

namespace Lexer

/-- Only the rule for numbers gives one. -/
theorem eq_numeral_of_mem_symbols {p : Pattern} {a : Piece} (hr : (p, a) ∈ rules) {lexeme : String}
    (h : Symbol.number ∈ symbols lexeme a) : p = numeral := by
  have htokens : ∀ r ∈ rules, r.2 ≠ .word → .number ∈ symbols "" r.2 → r.1 = numeral := by decide
  cases a with
  | word =>
    have hkeyword : (keyword? lexeme).getD .identifier ≠ .number := by
      unfold keyword?
      split <;> decide
    exact absurd (List.mem_singleton.mp h).symm hkeyword
  | _ => exact htokens _ hr (by simp) h

/-- The numbers among the tokens of a text are numerals. -/
theorem Laid.matches_numeral {front : List Char} {tokens : List Token} (h : Laid front tokens) :
    ∀ t ∈ tokens, t.symbol = .number → Matches numeral t.lexeme.toList := by
  induction h with
  | start => simp
  | blanks _ _ ih => exact ih
  | @token front text tokens p a s _ _ hr hm hs ih =>
    refine List.forall_mem_append.mpr ⟨ih, List.forall_mem_singleton.mpr fun hn => ?_⟩
    obtain rfl : s = .number := hn
    rw [String.toList_ofList, ← eq_numeral_of_mem_symbols hr (by rw [hs]; exact List.mem_singleton_self _)]
    exact hm
  | @pair front c tokens p first second _ hr hm ih =>
    refine List.forall_mem_append.mpr ⟨ih, fun t ht hn => ?_⟩
    have hmem : Symbol.number ∈ symbols (String.ofList [c]) (.pair first second) := by
      rw [symbols, List.mem_pair, ← hn]
      rcases List.mem_pair.mp ht with rfl | rfl
      · exact .inl rfl
      · exact .inr rfl
    have hlexeme : t.lexeme = String.ofList [c] := by
      rcases List.mem_pair.mp ht with rfl | rfl <;> rfl
    rw [hlexeme, String.toList_ofList, ← eq_numeral_of_mem_symbols hr hmem]
    exact hm

/-- A number among the tokens of a text is written as a numeral. -/
theorem exists_numeral_of_tokenize {text : String} {t : Token} (ht : t ∈ (tokenize text).tokens)
    (hn : t.symbol = .number) : ∃ n : Numeral, n.text = t.lexeme.toList := by
  have hlaid : Matches numeral t.lexeme.toList := by
    rcases scan_laid .start (Nat.le_refl text.toList.length) with
      ⟨words, hscan, hlaid⟩ | ⟨front, c, rest, words, -, -, hscan, hlaid⟩
    · rw [tokenize, show ({} : Text.Position) = placeOf [] from rfl, hscan] at ht
      rcases List.mem_append.mp ht with ht | ht
      · exact hlaid.matches_numeral t ht hn
      · rw [List.mem_singleton.mp ht] at hn
        cases hn
    · rw [tokenize, show ({} : Text.Position) = placeOf [] from rfl, hscan] at ht
      exact hlaid.matches_numeral t ht hn
  exact matches_numeral_iff.mp hlaid

end Lexer

end Formula
