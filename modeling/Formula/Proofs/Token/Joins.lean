import Formula.Proofs.Token.Brackets
import Formula.Proofs.Token.Whitespace

/-!
# Texts put together

Texts that are cut into lexemes are put together to a text that is cut into the lexemes of both: with a character
between them that stands alone (`Scanned.join`), with a blank between them (`Scanned.gap`), with `!` behind the first
(`Scanned.factorial`), and with a minus sign in front of the second unless it would be read as an arrow
(`Scanned.minus`).
-/

namespace Formula

open Pattern (Matches)
open Text (Position)

namespace Lexer

/-- A closed text is cut into what a scan of it finds. -/
theorem scanned_of_scan {text : List Char} (h : (scan text.length {} text).failure = none) :
    Scanned text ((scan text.length {} text).tokens.dropLast.map Token.written) := by
  obtain ⟨ls, hls⟩ := exists_scanned (Nat.le_refl _) h
  obtain ⟨tokens, stop, hscan, rfl⟩ := scan_of_scanned hls (Nat.le_refl _) {}
  rw [hscan, List.dropLast_concat]
  exact hls

/-- Signs and words that are cut into themselves, with the two signs that are two tokens. -/
def signs : List (List Lexeme) :=
  [[⟨.factorial, "!"⟩], [⟨.minus, "-"⟩], [⟨.equal, "="⟩], [⟨.notEqual, "!="⟩], [⟨.less, "<"⟩], [⟨.greater, ">"⟩],
    [⟨.less, "<"⟩, ⟨.equal, "="⟩], [⟨.greater, ">"⟩, ⟨.equal, "="⟩], [⟨.arrow, "->"⟩], [⟨.limit, "lim"⟩],
    [⟨.sum, "sum"⟩], [⟨.product, "prod"⟩]]

theorem scanned_sign (ls : List Lexeme) (hls : ls ∈ signs) : Scanned (ls.flatMap (·.text.toList)) ls := by
  have hscans : ∀ ls ∈ signs, let text := ls.flatMap (·.text.toList)
      (scan text.length {} text).failure = none ∧
        (scan text.length {} text).tokens.dropLast.map Token.written = ls := by
    decide +kernel
  obtain ⟨hfailure, htokens⟩ := hscans ls hls
  have hscanned := scanned_of_scan hfailure
  rwa [htokens] at hscanned

namespace Scanned

variable {text rest : List Char} {ls ls' : List Lexeme}

/-- With a character between them that stands alone. -/
theorem join (h : Scanned text ls) {b : Char × Symbol} (hb : b ∈ loners) (h' : Scanned rest ls') :
    Scanned (text ++ b.1 :: rest) (ls ++ bracketLexeme b :: ls') :=
  (scanned_append_loner_iff hb).mpr ⟨ls, ls', rfl, h, h'⟩

/-- With blanks between them. -/
theorem gap (h : Scanned text ls) {blanks : List Char} (hg : IsGap blanks) (hne : blanks ≠ [])
    (h' : Scanned rest ls') : Scanned (text ++ blanks ++ rest) (ls ++ ls') := by
  have hlength : (text ++ blanks ++ rest).length = text.length + blanks.length + rest.length := by
    rw [List.length_append, List.length_append]
  exact .of_andThen (scan_append_gap hg hne (Nat.le_of_eq hlength.symm) {}) (by omega) (by omega) h h'

/-- With the sign of a factorial behind it. -/
theorem factorial (h : Scanned text ls) : Scanned (text ++ ['!']) (ls ++ [⟨.factorial, "!"⟩]) := by
  have hsign : Scanned ['!'] [⟨.factorial, "!"⟩] := scanned_sign [⟨.factorial, "!"⟩] (by decide)
  exact (scanned_append_iff (seam_of_isInitial (by decide) text [])).mpr ⟨ls, _, rfl, h, hsign⟩

/-- With a minus sign in front of it. -/
theorem minus (h : Scanned text ls) (hhead : ∀ c ∈ text.head?, c ≠ '>') :
    Scanned ('-' :: text) (⟨.minus, "-"⟩ :: ls) := by
  have hsign : Scanned ['-'] [⟨.minus, "-"⟩] := scanned_sign [⟨.minus, "-"⟩] (by decide)
  -- what begins with a minus sign and goes on is an arrow
  have harrow : ∀ p ∈ patterns, p.heads.any (·.contains '-') = true → ∀ s ∈ p.tails, s = ⟨[.range '>' '>'], false⟩ := by
    decide
  have hseam : Seam ['-'] text := by
    intro xs ys hx hy hxs hys p hp hm
    obtain rfl : xs = ['-'] := (List.suffix_cons_iff.mp hxs).resolve_right fun h => hx (List.suffix_nil.mp h)
    obtain ⟨y, ys, rfl⟩ := List.exists_cons_of_ne_nil hy
    obtain ⟨more, rfl⟩ := hys
    obtain ⟨s, hs, hsc⟩ := hm.within.head '-' rfl
    obtain ⟨u, hu, huy⟩ := hm.within.tail y (by simp)
    obtain rfl := harrow p hp (List.any_eq_true.mpr ⟨s, hs, hsc⟩) u hu
    simp only [CharSet.contains, CharItem.contains, List.any_cons, List.any_nil, Bool.or_false, Bool.bne_false,
      Bool.and_eq_true, decide_eq_true_eq] at huy
    exact hhead y rfl (Char.le_antisymm huy.2 huy.1)
  exact (scanned_append_iff hseam).mpr ⟨[_], ls, rfl, hsign, h⟩

end Scanned

end Lexer

end Formula
