import Formula.Proofs.Token.Seam

/-!
# Texts cut at brackets

`Scanned` says into which lexemes a text is cut, piece by piece, wherever the text stands. It is what scanning does
(`scan_of_scanned`, `exists_scanned`). No piece goes on over a bracket, and a bracket is a piece of its own: a text
with a bracket in it is cut into what stands in front, the bracket, and what stands behind
(`scanned_append_bracket_iff`).
-/

namespace Formula

open Pattern (Accepts IsLongest In Matches)
open Text (Position)

namespace Lexer

/-- The text is cut into the lexemes. -/
inductive Scanned : List Char → List Lexeme → Prop where
  | done : Scanned [] []
  | piece {text : List Char} {n : Nat} {a : Piece} {ls : List Lexeme} (ht : text ≠ [])
      (hp : piece? text = some (n, a)) (h : Scanned (text.drop n) ls) :
      Scanned text ((symbols (String.ofList (text.take n)) a).map (⟨·, String.ofList (text.take n)⟩) ++ ls)

/-- No rule reads the end of a text. -/
theorem finish_not_mem_symbols {p : Pattern} {a : Piece} (hr : (p, a) ∈ rules) (lexeme : String) :
    Symbol.finish ∉ symbols lexeme a := by
  have htokens : ∀ r ∈ rules, r.2 ≠ .word → .finish ∉ symbols "" r.2 := by decide
  cases a with
  | word =>
    have hkeyword : (keyword? lexeme).getD .identifier ≠ .finish := by
      unfold keyword?
      split <;> decide
    exact fun h => hkeyword (List.mem_singleton.mp h).symm
  | _ => exact htokens _ hr (by simp)

theorem Scanned.symbol_ne_finish {text : List Char} {ls : List Lexeme} (h : Scanned text ls) :
    ∀ l ∈ ls, l.symbol ≠ .finish := by
  induction h with
  | done => simp
  | piece _ hp _ ih =>
    obtain ⟨p, hr, -⟩ := exists_rule_of_piece? hp
    intro l hl
    rcases List.mem_append.mp hl with hl | hl
    · obtain ⟨x, hx, rfl⟩ := List.mem_map.mp hl
      rintro rfl
      exact finish_not_mem_symbols hr _ hx
    · exact ih l hl

/-! ## Scanning -/

/-- A text that is cut into lexemes is scanned into tokens for them. -/
theorem scan_of_scanned {text : List Char} {ls : List Lexeme} (h : Scanned text ls) {fuel : Nat}
    (hf : text.length ≤ fuel) (position : Position) :
    ∃ tokens stop, scan fuel position text = ⟨tokens ++ [.finish stop], none⟩ ∧ tokens.map Token.written = ls := by
  induction h generalizing fuel position with
  | done =>
    refine ⟨[], position, ?_, rfl⟩
    cases fuel <;> rfl
  | @piece text n a ls ht hp _ ih =>
    obtain ⟨hpos, hle⟩ := length_of_piece? hp
    obtain ⟨c, cs, rfl⟩ := List.exists_cons_of_ne_nil ht
    obtain ⟨fuel, rfl⟩ : ∃ k, fuel = k + 1 := ⟨fuel - 1, by rw [List.length_cons] at hf; omega⟩
    have hleft : ((c :: cs).drop n).length ≤ fuel := by
      rw [List.length_drop]
      omega
    obtain ⟨tokens, stop, hscan, hwritten⟩ := ih hleft (position.after ((c :: cs).take n))
    rw [scan_cons hp]
    dsimp only
    rw [hscan]
    refine ⟨_, stop, by rw [List.append_assoc], ?_⟩
    rw [List.map_append, hwritten, List.map_map]
    rfl

/-- A text that is scanned without an error is cut into lexemes. -/
theorem exists_scanned {text : List Char} {fuel : Nat} {position : Position} (hf : text.length ≤ fuel)
    (h : (scan fuel position text).failure = none) : ∃ ls, Scanned text ls := by
  induction fuel generalizing text position with
  | zero => exact ⟨[], by rw [List.eq_nil_of_length_eq_zero (Nat.le_zero.mp hf)]; exact .done⟩
  | succ fuel ih =>
    cases text with
    | nil => exact ⟨[], .done⟩
    | cons c cs =>
      cases hp : piece? (c :: cs) with
      | none =>
        rw [scan_of_piece?_eq_none hp] at h
        cases h
      | some found =>
        obtain ⟨n, a⟩ := found
        obtain ⟨hpos, -⟩ := length_of_piece? hp
        rw [scan_cons hp] at h
        obtain ⟨ls, hls⟩ := ih (by rw [List.length_drop]; omega) h
        exact ⟨_, .piece (List.cons_ne_nil c cs) hp hls⟩

/-- The lexemes of a text are unique. -/
theorem Scanned.unique {text : List Char} {ls ls' : List Lexeme} (h : Scanned text ls) (h' : Scanned text ls') :
    ls = ls' := by
  obtain ⟨tokens, stop, hscan, rfl⟩ := scan_of_scanned h (Nat.le_refl _) {}
  obtain ⟨tokens', stop', hscan', rfl⟩ := scan_of_scanned h' (Nat.le_refl _) {}
  rw [hscan, Scan.mk.injEq] at hscan'
  rw [(List.append_inj' hscan'.1 rfl).1]

/-- A text that spells lexemes is cut into them. -/
theorem scanned_of_spelled {ls : List Lexeme} {text : List Char} (h : Spelled ls text) (hl : ∀ l ∈ ls, l.Legal)
    (ha : ls.IsChain Lexeme.Apart) : Scanned text ls := by
  obtain ⟨tokens, stop, hscan, rfl⟩ := scan_spelled h hl ha (Nat.le_refl _) {}
  obtain ⟨ls, hls⟩ := exists_scanned (Nat.le_refl text.length) (congrArg Scan.failure hscan)
  obtain ⟨tokens', stop', hscan', rfl⟩ := scan_of_scanned hls (Nat.le_refl _) {}
  rw [hscan, Scan.mk.injEq] at hscan'
  rwa [(List.append_inj' hscan'.1 rfl).1]

/-! ## Seams -/

/-- A text whose scan is that of one part and then of another is cut into the lexemes of both. -/
theorem Scanned.of_andThen {whole text rest : List Char} {position : Position} {front back : List Lexeme}
    (hscan : scan whole.length {} whole = (scan whole.length {} text).andThen (scan whole.length position rest))
    (ht : text.length ≤ whole.length) (hr : rest.length ≤ whole.length) (hfront : Scanned text front)
    (hback : Scanned rest back) : Scanned whole (front ++ back) := by
  obtain ⟨words, stop, htext, rfl⟩ := scan_of_scanned hfront ht {}
  obtain ⟨more, stop', hrest, rfl⟩ := scan_of_scanned hback hr position
  rw [htext, hrest, Scan.andThen_of_finish, ← List.append_assoc] at hscan
  obtain ⟨ls, hls⟩ := exists_scanned (Nat.le_refl _) (congrArg Scan.failure hscan)
  obtain ⟨tokens, stop'', hwhole, rfl⟩ := scan_of_scanned hls (Nat.le_refl _) {}
  rw [hwhole, Scan.mk.injEq] at hscan
  rwa [(List.append_inj' hscan.1 rfl).1, List.map_append] at hls

/-- A text in front of a seam is cut by itself, and so is the text behind it. -/
theorem scanned_append_iff {text rest : List Char} (h : Seam text rest) {ls : List Lexeme} :
    Scanned (text ++ rest) ls ↔ ∃ front back, ls = front ++ back ∧ Scanned text front ∧ Scanned rest back := by
  have hscan := scan_append_of_seam h (Nat.le_of_eq List.length_append.symm) {}
  have hfuel : text.length ≤ (text ++ rest).length ∧ rest.length ≤ (text ++ rest).length := by
    rw [List.length_append]
    omega
  constructor
  · intro hls
    obtain ⟨tokens, stop, hwhole, rfl⟩ := scan_of_scanned hls (Nat.le_refl _) {}
    rw [hwhole] at hscan
    cases hfront : (scan (text ++ rest).length {} text).failure with
    | some e =>
      rw [Scan.andThen_of_failure hfront] at hscan
      exact absurd (hfront.symm.trans (congrArg Scan.failure hscan).symm) (by simp)
    | none =>
      obtain ⟨front, hfront⟩ := exists_scanned hfuel.1 hfront
      obtain ⟨words, stop', htext, rfl⟩ := scan_of_scanned hfront hfuel.1 {}
      rw [htext, Scan.andThen_of_finish] at hscan
      obtain ⟨back, hback⟩ := exists_scanned hfuel.2 (congrArg Scan.failure hscan).symm
      obtain ⟨more, stop'', hrest, rfl⟩ := scan_of_scanned hback hfuel.2 (Text.Position.after {} text)
      rw [hrest, Scan.mk.injEq, ← List.append_assoc] at hscan
      refine ⟨_, _, ?_, hfront, hback⟩
      rw [(List.append_inj' hscan.1 rfl).1, List.map_append]
  · rintro ⟨front, back, rfl, hfront, hback⟩
    exact .of_andThen hscan hfuel.1 hfuel.2 hfront hback

/-! ## Brackets, and other characters that stand alone -/

/-- The brackets with their symbols. -/
def brackets : List (Char × Symbol) :=
  [('(', .leftParen), (')', .rightParen), ('[', .leftBracket), (']', .rightBracket), ('\x7b', .leftBrace),
    ('\x7d', .rightBrace)]

/-- The characters that are always a piece of their own, with their symbols. -/
def loners : List (Char × Symbol) :=
  brackets ++ [('|', .bar), (',', .comma), ('_', .subscript), ('^', .power), ('@', .compose), ('+', .plus)]

/-- The lexeme of a bracket. -/
def bracketLexeme (b : Char × Symbol) : Lexeme := ⟨b.2, String.ofList [b.1]⟩

theorem scanned_loner {b : Char × Symbol} (hb : b ∈ loners) : Scanned [b.1] [bracketLexeme b] := by
  have hpieces : ∀ b ∈ loners, piece? [b.1] = some (1, .token b.2) := by decide +kernel
  exact Scanned.piece (List.cons_ne_nil b.1 []) (hpieces b hb) .done

/-- A text is cut at the characters that stand alone. -/
theorem scanned_append_loner_iff {b : Char × Symbol} (hb : b ∈ loners) {text rest : List Char} {ls : List Lexeme} :
    Scanned (text ++ b.1 :: rest) ls ↔
      ∃ front back, ls = front ++ bracketLexeme b :: back ∧ Scanned text front ∧ Scanned rest back := by
  have halone : ∀ b ∈ loners, isAlone b.1 = true := by decide
  have hb' : b.1 :: rest = [b.1] ++ rest := rfl
  rw [scanned_append_iff (seam_of_isAlone (halone b hb) text rest), hb']
  simp only [scanned_append_iff (seam_singleton_of_isAlone (halone b hb) rest)]
  constructor
  · rintro ⟨front, _, rfl, hfront, bracket, back, rfl, hbracket, hback⟩
    rw [hbracket.unique (scanned_loner hb)]
    exact ⟨front, back, rfl, hfront, hback⟩
  · rintro ⟨front, back, rfl, hfront, hback⟩
    exact ⟨front, _, rfl, hfront, [bracketLexeme b], back, rfl, scanned_loner hb, hback⟩

/-- A text is cut at its brackets. -/
theorem scanned_append_bracket_iff {b : Char × Symbol} (hb : b ∈ brackets) {text rest : List Char}
    {ls : List Lexeme} :
    Scanned (text ++ b.1 :: rest) ls ↔
      ∃ front back, ls = front ++ bracketLexeme b :: back ∧ Scanned text front ∧ Scanned rest back :=
  scanned_append_loner_iff (List.mem_append_left _ hb)

end Lexer

end Formula
