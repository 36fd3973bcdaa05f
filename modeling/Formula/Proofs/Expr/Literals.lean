import Formula.Proofs.Expr.Safety
import Formula.Proofs.Token.Numeral

/-!
# Every number that is read has a value

A reduction refuses a lexeme only if it is that of a number without a value (`Setting.run_isOf`). The numbers among
the tokens of a text are numerals, and the reader of literals accepts every numeral (`Numeral.ofLiteral?_eq`). So
whatever else may be wrong with a text, its tokens are never refused as unrecognized (`numbers_have_values`).
-/

namespace Formula

open Int128 (InRange)
open Text (Position)

namespace Numeral

theorem value_nonneg (n : Numeral) : 0 ≤ n.value := by
  unfold value
  positivity

theorem ofLiteral?_ne_none {literal : String} (h : ∃ n : Numeral, n.text = literal.toList) :
    Number.ofLiteral? literal ≠ none := by
  obtain ⟨n, hn⟩ := h
  rw [n.ofLiteral?_eq hn.symm]
  split <;> simp

end Numeral

/-- A row of tokens is refused as unrecognized only for a number that has no value. -/
theorem Setting.parseTokens_unrecognized {s : Setting} {goal : Goal} {tokens : List Token} {names : List String}
    {lexeme : String} {position : Position}
    (h : (s.parseTokens goal tokens names).result = .error (.unrecognized lexeme position)) :
    ∃ t ∈ tokens, t.symbol = .number ∧ t.lexeme = lexeme ∧ Number.ofLiteral? lexeme = none := by
  change (do return (← exprOf (← (s.run goal tokens names).result)).classify) = _ at h
  cases hrun : (s.run goal tokens names).result with
  | error e =>
    rw [hrun] at h
    cases h
    exact (run_isOf hrun).unrecognized rfl
  | ok token =>
    obtain ⟨a, ha⟩ := run_ok hrun
    rw [hrun] at h
    change (do return (← exprOf token).classify) = _ at h
    rw [exprOf, ha] at h
    cases h

/-- Every number among the tokens of a text is a numeral and has a value: the number that is written, as a fraction
in lowest terms, if its digits and the power of ten for its places fit, and otherwise the double nearest to it. So the
tokens of a text can be read, or not, but they are never refused for a number that has no value. -/
theorem numbers_have_values (text : String) :
    (∀ t ∈ (tokenize text).tokens, t.symbol = .number →
      (∃ n : Numeral, n.text = t.lexeme.toList) ∧ ∀ n : Numeral, n.text = t.lexeme.toList →
        let fits := InRange n.coefficient ∧ InRange (10 ^ n.places.length)
        0 ≤ n.value ∧
        (fits → Number.ofLiteral? t.lexeme = some (.ratio n.value.num n.value.den)) ∧
        (¬ fits → Number.ofLiteral? t.lexeme =
          some (.real (Decimal.nearest n.coefficient (-(n.places.length : Int)))))) ∧
    ∀ (s : Setting) (goal : Goal) (names : List String) (lexeme : String) (position : Position),
      (s.parseTokens goal (tokenize text).tokens names).result ≠ .error (.unrecognized lexeme position) := by
  refine ⟨fun t ht hn => ⟨Lexer.exists_numeral_of_tokenize ht hn, fun n htext => ?_⟩, ?_⟩
  · rw [n.ofLiteral?_eq htext.symm]
    exact ⟨n.value_nonneg, fun hfits => if_pos hfits, fun hfits => if_neg hfits⟩
  · intro s goal names lexeme position h
    obtain ⟨t, ht, hn, rfl, hnone⟩ := Setting.parseTokens_unrecognized h
    exact Numeral.ofLiteral?_ne_none (Lexer.exists_numeral_of_tokenize ht hn) hnone

/-- A point in front, and a zero behind. -/
theorem number_half :
    let t : Token := ⟨.number, ".50", ⟨⟨1, 1⟩, ⟨1, 4⟩⟩, .nothing⟩
    t ∈ (tokenize ".50").tokens ∧ t.symbol = .number ∧ Number.ofLiteral? ".50" = some (.ratio 1 2) := by
  intro t
  have ht : t ∈ (tokenize ".50").tokens := by
    rw [show (tokenize ".50").tokens = [t, .finish ⟨1, 4⟩] from rfl]
    exact List.mem_cons_self
  let n : Numeral := ⟨[], some ['5', '0'], List.all_eq_true.mp rfl, by decide⟩
  have hvalue : n.value = ((1 : Int) : ℚ) / (2 : Int) := by
    rw [Numeral.value, show n.coefficient = 50 from rfl, show n.places.length = 2 from rfl]
    norm_num
  obtain ⟨-, hratio, -⟩ := ((numbers_have_values ".50").1 t ht rfl).2 n (by decide)
  refine ⟨ht, rfl, (hratio (by decide)).trans ?_⟩
  rw [hvalue, Rat.num_div_eq_of_coprime (by decide) (by decide), Rat.den_div_eq_of_coprime (by decide) (by decide)]

end Formula
