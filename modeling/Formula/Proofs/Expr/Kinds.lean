import Formula.Proofs.Expr.Likeness

/-!
# Kinds of tokens, and spellings of numbers and identifiers

Nothing else of a text counts for the parser: where its tokens stand, what lies between them and how punctuation is
spelled shows only in the errors that quote it (`Error.unplaced`). Two rows of tokens that are read the same one by one
(`Token.SameReading`) are parsed to the same tree or the same error, with the same variables and in as many shifts,
reductions and open choices (`Setting.parseTokens_sameReading`). So blanks, line breaks and the one-character relations
`≤` and `≥` do no harm.
-/

namespace Formula

/-- Two tokens of one kind. Numbers and identifiers have one spelling. -/
structure Token.SameReading (t t' : Token) : Prop where
  symbol : t.symbol = t'.symbol
  lexeme : t.symbol = .number ∨ t.symbol = .identifier → t.lexeme = t'.lexeme

instance (t t' : Token) : Decidable (t.SameReading t') :=
  decidable_of_iff (t.symbol = t'.symbol ∧ (t.symbol = .number ∨ t.symbol = .identifier → t.lexeme = t'.lexeme))
    ⟨fun h => ⟨h.1, h.2⟩, fun h => ⟨h.symbol, h.lexeme⟩⟩

/-- An error without the position that it reports, and without the spelling of the token that it quotes, unless that is
a number or an identifier. -/
def Error.unplaced : Error → Error
  | unrecognized text _ => unrecognized text {}
  | unexpected symbol lexeme _ =>
    unexpected symbol (if symbol = .number ∨ symbol = .identifier then lexeme else "") {}
  | unexpectedEnd _ => unexpectedEnd {}
  | e => e

namespace Setting

/-- Two refused tokens that are read the same give the same error but for the place. -/
theorem unplaced_unexpected {t t' : Token} (h : t.SameReading t') :
    (unexpected t).unplaced = (unexpected t').unplaced := by
  have hlexeme : (if t.symbol = .number ∨ t.symbol = .identifier then t.lexeme else "") =
      if t.symbol = .number ∨ t.symbol = .identifier then t'.lexeme else "" := by
    split
    · exact h.lexeme ‹_›
    · rfl
  unfold unexpected
  rw [← h.symbol]
  split
  · rfl
  · exact congrArg (Error.unexpected t.symbol · {}) hlexeme

theorem likeness_of_sameReading (s : Setting) :
    s.Likeness Token.SameReading (fun e e' => e.unplaced = e'.unplaced) s where
  limits := rfl
  symbol h := h.symbol
  lexeme h := h.lexeme
  agree _ _ := .refl _ _
  refl _ := rfl
  unexpected := unplaced_unexpected
  unrecognized h ht := by
    rw [h.lexeme (.inl ht)]
    rfl

/-- Only the kinds of the tokens and the spellings of numbers and identifiers matter. Two rows of tokens that agree in
these, one by one, are parsed to the same tree, or they fail with the same error, up to the position and the spelling of
punctuation. Either way they leave the same variables, and the parser has shifted, reduced and met open choices as
often. -/
theorem parseTokens_sameReading (s : Setting) (goal : Goal) {tokens tokens' : List Token}
    (h : List.Forall₂ Token.SameReading tokens tokens') (names : List String) :
    let parsed := s.parseTokens goal tokens names
    let parsed' := s.parseTokens goal tokens' names
    parsed.result.mapError Error.unplaced = parsed'.result.mapError Error.unplaced ∧
      parsed.variableNames = parsed'.variableNames ∧
      (s.run goal tokens names).stats = (s.run goal tokens' names).stats := by
  dsimp only
  have hend : Token.SameReading (.finish (stopOf tokens)) (.finish (stopOf tokens')) := ⟨rfl, fun _ => rfl⟩
  obtain ⟨hconcur, hstats⟩ := s.likeness_of_sameReading.parseTokens_concur hend h goal names
  generalize s.parseTokens goal tokens names = parsed at hconcur ⊢
  generalize s.parseTokens goal tokens' names = parsed' at hconcur ⊢
  obtain ⟨result, met⟩ := parsed
  obtain ⟨result', met'⟩ := parsed'
  cases hconcur with
  | ok he =>
    cases he
    exact ⟨rfl, rfl, hstats⟩
  | error he => exact ⟨congrArg Except.error he, rfl, hstats⟩

/-- A relation in one character and in two on two lines, with its right side and without. -/
theorem parseTokens_relation :
    let s : Setting := {}
    let parse := fun text => s.parseTokens .equation (tokenize text).tokens []
    (parse "x≤2").result.mapError Error.unplaced = (parse "x <\n = 2").result.mapError Error.unplaced ∧
      (parse "x≤").result.mapError Error.unplaced = (parse "x <\n =").result.mapError Error.unplaced := by
  have hwhole : List.Forall₂ Token.SameReading (tokenize "x≤2").tokens (tokenize "x <\n = 2").tokens := by
    decide +kernel
  have hpart : List.Forall₂ Token.SameReading (tokenize "x≤").tokens (tokenize "x <\n =").tokens := by decide +kernel
  exact ⟨(parseTokens_sameReading {} .equation hwhole []).1, (parseTokens_sameReading {} .equation hpart []).1⟩

end Setting

end Formula
