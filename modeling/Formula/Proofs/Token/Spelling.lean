import Mathlib.Data.List.Chain
import Formula.Proofs.Token.Piece

/-!
# Texts with given tokens

A text spells a row of lexemes when it holds them in order, with blanks before, between and behind them
(`Spelled`). The blanks may be missing wherever a lexeme is not read on with the next one (`Lexeme.Apart`). The
tokens of such a text are the lexemes, followed by the end of the input (`tokenize_spelled`); the proof goes from
piece to piece, and the next piece is always the longest match.
-/

namespace Formula

open Pattern (In Matches)
open Text (Position)

/-! ## Lexemes -/

/-- What a token is in the text: its kind and its characters. -/
structure Lexeme where
  symbol : Symbol
  text : String
deriving DecidableEq, Repr

/-- The lexeme of a token. -/
def Token.written (t : Token) : Lexeme := ⟨t.symbol, t.lexeme⟩

namespace Lexer

/-- What a token of a kind is read from. -/
def pieceOf : Symbol → Piece
  | .number => .number
  | .identifier => .word
  | s => .token s

/-- The pattern of the rule for a piece. -/
def patternOf (a : Piece) : Pattern := ((rules.find? (·.2 = a)).map (·.1)).getD .never

theorem mem_rules_of_matches {a : Piece} {text : List Char} (h : Matches (patternOf a) text) :
    (patternOf a, a) ∈ rules := by
  unfold patternOf at h ⊢
  cases hf : rules.find? (·.2 = a) with
  | none =>
    rw [hf] at h
    cases h
  | some r =>
    have hr := List.find?_some hf
    rw [decide_eq_true_eq] at hr
    rw [Option.map_some, Option.getD_some, ← hr]
    exact List.mem_of_find?_eq_some hf

/-- No rule matches the empty text. -/
theorem ne_nil_of_matches {p : Pattern} {a : Piece} (hr : (p, a) ∈ rules) {text : List Char}
    (hm : Matches p text) : text ≠ [] := by
  rintro rfl
  have hall : ∀ r ∈ rules, r.1.nullable = false := by decide
  have := hall _ hr
  rw [Pattern.nullable_iff.mpr hm] at this
  cases this

/-- Blanks are not read on with anything else, and nothing else is read on with blanks. -/
theorem parts_blanks {p : Pattern} {a : Piece} (hr : (p, a) ∈ rules) (ha : a ≠ .blank) :
    parts blanks p = true ∧ parts p blanks = true := by
  have hall : ∀ r ∈ rules, r.2 ≠ .blank → parts blanks r.1 = true ∧ parts r.1 blanks = true := by
    decide +kernel
  exact hall _ hr ha

end Lexer

namespace Lexeme

/-- The pattern of a lexeme's kind. -/
def pattern (l : Lexeme) : Pattern := Lexer.patternOf (Lexer.pieceOf l.symbol)

/-- The text is read as one token of the kind. -/
structure Legal (l : Lexeme) : Prop where
  fits : Matches l.pattern l.text.toList
  symbols : Lexer.symbols l.text (Lexer.pieceOf l.symbol) = [l.symbol]

/-- The one lexeme is not read on with the other directly behind it. -/
def Apart (l l' : Lexeme) : Prop := Lexer.parts l.pattern l'.pattern = true

theorem Legal.rule {l : Lexeme} (h : l.Legal) : (l.pattern, Lexer.pieceOf l.symbol) ∈ Lexer.rules :=
  Lexer.mem_rules_of_matches h.fits

theorem Legal.ne_nil {l : Lexeme} (h : l.Legal) : l.text.toList ≠ [] :=
  Lexer.ne_nil_of_matches h.rule h.fits

theorem Legal.parts_blanks {l : Lexeme} (h : l.Legal) :
    Lexer.parts Lexer.blanks l.pattern = true ∧ Lexer.parts l.pattern Lexer.blanks = true := by
  refine Lexer.parts_blanks h.rule ?_
  unfold Lexer.pieceOf
  split <;> simp

end Lexeme

/-! ## Spelling -/

/-- A run of blanks, or none. -/
def IsGap (gap : List Char) : Prop := ∀ c ∈ gap, Text.isBlank c = true

/-- A text that holds some lexemes in order, with gaps before, between and behind them. -/
inductive Spelled : List Lexeme → List Char → Prop where
  | done {gap : List Char} (hg : IsGap gap) : Spelled [] gap
  | next {gap : List Char} {l : Lexeme} {ls : List Lexeme} {text : List Char} (hg : IsGap gap)
      (h : Spelled ls text) : Spelled (l :: ls) (gap ++ (l.text.toList ++ text))

/-- The text without any gaps. -/
theorem spelled_flatMap (ls : List Lexeme) : Spelled ls (ls.flatMap (·.text.toList)) := by
  induction ls with
  | nil => exact .done (by simp [IsGap])
  | cons l ls ih =>
    rw [List.flatMap_cons]
    exact @Spelled.next [] l ls _ (by simp [IsGap]) ih

/-- A text of characters from one set, as a repetition. -/
theorem Pattern.matches_atLeastOne {s : CharSet} {text : List Char} (ht : text ≠ [])
    (h : ∀ c ∈ text, s.contains c = true) : Matches (.atLeastOne (.one s)) text := by
  have hstar : ∀ {text : List Char}, (∀ c ∈ text, s.contains c = true) → Matches (.star (.one s)) text := by
    intro text h
    induction text with
    | nil => exact .done
    | cons c text ih =>
      have hrest := ih fun d hd => h d (List.mem_cons_of_mem c hd)
      exact .more (.one (h c List.mem_cons_self)) hrest
  obtain ⟨c, cs, rfl⟩ := List.exists_cons_of_ne_nil ht
  have hrest := hstar fun d hd => h d (List.mem_cons_of_mem c hd)
  exact .seq (.one (h c List.mem_cons_self)) hrest

theorem IsGap.matches_blanks {gap : List Char} (hg : IsGap gap) (hne : gap ≠ []) :
    Matches Lexer.blanks gap := by
  refine Pattern.matches_atLeastOne hne fun c hc => ?_
  simpa [CharSet.contains, CharItem.contains] using hg c hc

/-- A spelled text begins with a blank or with the first lexeme. -/
theorem Spelled.head {ls : List Lexeme} {text : List Char} (h : Spelled ls text)
    (hl : ∀ l ∈ ls, l.Legal) : ∀ d ∈ text.head?,
      In Lexer.blanks.heads d ∨ ∃ l ∈ ls.head?, In l.pattern.heads d := by
  have hgap : ∀ {gap rest : List Char}, IsGap gap → gap ≠ [] → ∀ d ∈ (gap ++ rest).head?,
      In Lexer.blanks.heads d := by
    intro gap rest hg hne d hd
    rw [List.head?_append_of_ne_nil _ hne] at hd
    exact (hg.matches_blanks hne).within.head d hd
  intro d hd
  cases h with
  | done hg =>
    by_cases hne : text = []
    · rw [hne] at hd
      cases hd
    · rw [← List.append_nil text] at hd
      exact .inl (hgap hg hne d hd)
  | @next gap l ls rest hg h =>
    by_cases hne : gap = []
    · rw [hne, List.nil_append] at hd
      have hlegal := hl l List.mem_cons_self
      rw [List.head?_append_of_ne_nil _ hlegal.ne_nil] at hd
      exact .inr ⟨l, rfl, hlegal.fits.within.head d hd⟩
    · exact .inl (hgap hg hne d hd)

/-! ## Scanning -/

namespace Lexer

section

-- so that the next piece is not computed when the scan is unfolded
attribute [local irreducible] piece?

/-- A text that begins with no piece is refused at its first character. -/
theorem scan_of_piece?_eq_none {c : Char} {cs : List Char} (hp : piece? (c :: cs) = none) (fuel : Nat)
    (position : Position) :
    scan (fuel + 1) position (c :: cs) = ⟨[], some (.unrecognized (String.ofList [c]) position)⟩ := by
  rw [scan_succ, hp]

/-- A piece and what is scanned behind it. -/
theorem scan_cons {c : Char} {cs : List Char} {length : Nat} {a : Piece}
    (hp : piece? (c :: cs) = some (length, a)) (fuel : Nat) (position : Position) :
    scan (fuel + 1) position (c :: cs) =
      let text := (c :: cs).take length
      let rest := scan fuel (position.after text) ((c :: cs).drop length)
      ⟨(symbols (String.ofList text) a).map (fun s =>
          ⟨s, String.ofList text, ⟨position, position.after text⟩, .nothing⟩) ++ rest.tokens,
        rest.failure⟩ := by
  rw [scan_succ, hp]

end

theorem scan_append {text rest : List Char} (ht : text ≠ []) {a : Piece}
    (hp : piece? (text ++ rest) = some (text.length, a)) (fuel : Nat) (position : Position) :
    scan (fuel + 1) position (text ++ rest) =
      ⟨(symbols (String.ofList text) a).map (fun s =>
          ⟨s, String.ofList text, ⟨position, position.after text⟩, .nothing⟩) ++
        (scan fuel (position.after text) rest).tokens, (scan fuel (position.after text) rest).failure⟩ := by
  obtain ⟨c, cs, rfl⟩ := List.exists_cons_of_ne_nil ht
  rw [List.cons_append] at hp ⊢
  rw [scan_cons hp]
  dsimp only
  rw [← List.cons_append, List.take_left' rfl, List.drop_left' rfl]

/-- A gap is passed over. -/
theorem scan_gap {gap rest : List Char} (hg : IsGap gap)
    (hrest : ∀ d ∈ rest.head?, ¬ In (joins blanks) d) {fuel : Nat} (hf : gap.length + rest.length ≤ fuel)
    (position : Position) :
    ∃ fuel' position', rest.length ≤ fuel' ∧ scan fuel position (gap ++ rest) = scan fuel' position' rest := by
  by_cases hne : gap = []
  · subst hne
    exact ⟨fuel, position, by simpa using hf, rfl⟩
  · have hlen := List.length_pos_of_ne_nil hne
    obtain ⟨fuel, rfl⟩ : ∃ k, fuel = k + 1 := ⟨fuel - 1, by omega⟩
    have hp : piece? (gap ++ rest) = some (gap.length, .blank) :=
      piece?_append (by simp [rules]) (hg.matches_blanks hne) hne hrest
    refine ⟨fuel, position.after gap, by omega, ?_⟩
    rw [scan_append hne hp]
    simp [symbols]

/-- A spelled text is scanned into its lexemes. -/
theorem scan_spelled {ls : List Lexeme} {text : List Char} (h : Spelled ls text) (hl : ∀ l ∈ ls, l.Legal)
    (ha : ls.IsChain Lexeme.Apart) {fuel : Nat} (hf : text.length ≤ fuel) (position : Position) :
    ∃ tokens stop, scan fuel position text = ⟨tokens ++ [.finish stop], none⟩ ∧
      tokens.map Token.written = ls := by
  induction h generalizing fuel position with
  | @done gap hg =>
    have hend : ∀ d ∈ ([] : List Char).head?, ¬ In (joins blanks) d := by simp
    obtain ⟨fuel', position', -, he⟩ := scan_gap hg hend (by simpa using hf) position
    rw [List.append_nil] at he
    refine ⟨[], position', ?_, rfl⟩
    rw [he]
    cases fuel' <;> rfl
  | @next gap l ls rest hg h ih =>
    have hlegal := hl l List.mem_cons_self
    have hne := hlegal.ne_nil
    have hlegals : ∀ l ∈ ls, l.Legal := fun l' hl' => hl l' (List.mem_cons_of_mem l hl')
    -- the gap ends where the lexeme begins
    have hgap : ∀ d ∈ (l.text.toList ++ rest).head?, ¬ In (joins blanks) d := by
      intro d hd
      rw [List.head?_append_of_ne_nil _ hne] at hd
      exact not_in_joins_of_parts hlegal.parts_blanks.1 (hlegal.fits.within.head d hd)
    obtain ⟨fuel', position', hf', he⟩ := scan_gap hg hgap (by simpa using hf) position
    rw [he]
    -- the lexeme ends where the next gap or the next lexeme begins
    have hrest : ∀ d ∈ rest.head?, ¬ In (joins l.pattern) d := by
      intro d hd
      rcases h.head hlegals d hd with hd | ⟨l', hl', hd⟩
      · exact not_in_joins_of_parts hlegal.parts_blanks.2 hd
      · exact not_in_joins_of_parts (ha.rel_head? hl') hd
    have hp := piece?_append hlegal.rule hlegal.fits hne hrest
    have hlen := List.length_pos_of_ne_nil hne
    rw [List.length_append] at hf'
    obtain ⟨fuel', rfl⟩ : ∃ k, fuel' = k + 1 := ⟨fuel' - 1, by omega⟩
    have hfuel : rest.length ≤ fuel' := by omega
    obtain ⟨tokens, stop, ht, hw⟩ := ih hlegals ha.tail hfuel (position'.after l.text.toList)
    rw [scan_append hne hp, ht, String.ofList_toList, hlegal.symbols]
    exact ⟨⟨l.symbol, l.text, ⟨position', position'.after l.text.toList⟩, .nothing⟩ :: tokens, stop, rfl,
      congrArg (l :: ·) hw⟩

end Lexer

/-- The tokens of a text are the lexemes that it spells. -/
theorem tokenize_spelled {ls : List Lexeme} {text : String} (h : Spelled ls text.toList)
    (hl : ∀ l ∈ ls, l.Legal) (ha : ls.IsChain Lexeme.Apart) :
    ∃ tokens stop, tokenize text = ⟨tokens ++ [.finish stop], none⟩ ∧ tokens.map Token.written = ls :=
  Lexer.scan_spelled h hl ha (Nat.le_refl _) {}

end Formula
