import Formula.Proofs.Expr.Exact
import Formula.Proofs.Expr.Invariant
import Formula.Proofs.Expr.Precedence

/-!
# Reading a text

What is shown for rows of lexemes is carried to texts here. A text is read as a tree at a level (`ReadsText`) when it
spells a row that is read so, and texts are put together by signs, operators, brackets and bars as rows are, with blanks
around an operator or without. A text that is read at any level is parsed as its tree (`ReadsText.parse_eq`). The trees
that arise are made of operations that nothing limits (`Expr.Total`), so that they have a value, whatever it may be.
-/

namespace Formula

open Text (Position)

/-! ## Trees with a value -/

/-- Trees of operations without limits on names and numbers. -/
inductive Expr.Total : Expr → Prop where
  | number (literal : String) (value : Number) : Total (.number literal value)
  | name (name : String) : Total (.variable name)
  | constant (name : String) (value : Value) : Total (.constant name value)
  | neg {a : Expr} (ha : Total a) : Total (.neg a)
  | absolute {a : Expr} (ha : Total a) : Total (.absolute a)
  | factorial {a : Expr} (ha : Total a) : Total (.factorial a (1 / 0))
  | binary {op : Operator} {a b : Expr} (ha : Total a) (hb : Total b) : Total (.binary op a b)
  | power {a b : Expr} (ha : Total a) (hb : Total b) : Total (.power a b (1 / 0))

namespace Expr.Total

variable {e : Expr}

theorem exists_value (h : e.Total) : ∃ v, e.evaluate = .ok v := by
  induction h with
  | number | name | constant => exact ⟨_, rfl⟩
  | neg _ ih =>
    obtain ⟨v, hv⟩ := ih
    exact ⟨_, evaluate_neg hv⟩
  | absolute _ ih =>
    obtain ⟨v, hv⟩ := ih
    exact ⟨_, evaluate_absolute hv⟩
  | factorial _ ih =>
    obtain ⟨v, hv⟩ := ih
    exact ⟨_, evaluate_factorial hv⟩
  | binary _ _ iha ihb =>
    obtain ⟨v, hv⟩ := iha
    obtain ⟨w, hw⟩ := ihb
    exact ⟨_, evaluate_binary _ hv hw⟩
  | power _ _ iha ihb =>
    obtain ⟨v, hv⟩ := iha
    obtain ⟨w, hw⟩ := ihb
    exact ⟨_, evaluate_power hv hw⟩

theorem classify_eq (h : e.Total) : e.classify = e := by
  cases h <;> rfl

theorem resolve (s : Setting) (name : String) (subscript : Option String) : (s.resolve name subscript).Total :=
  Setting.resolve_induction .name (fun _ _ _ => .constant _ _) (fun _ _ ha hb => .binary ha hb) name subscript

end Expr.Total

/-! ## Spelled texts -/

theorem Spelled.gap_append {gap text : List Char} (hg : IsGap gap) {ls : List Lexeme} (h : Spelled ls text) :
    Spelled ls (gap ++ text) := by
  cases h with
  | done hg' => exact .done (List.forall_mem_append.mpr ⟨hg, hg'⟩)
  | next hg' h =>
    rw [← List.append_assoc]
    exact .next (List.forall_mem_append.mpr ⟨hg, hg'⟩) h

theorem Spelled.append {ls ls' : List Lexeme} {text text' : List Char} (h : Spelled ls text) (h' : Spelled ls' text') :
    Spelled (ls ++ ls') (text ++ text') := by
  induction h with
  | done hg => exact h'.gap_append hg
  | next hg _ ih =>
    rw [List.append_assoc, List.append_assoc]
    exact .next hg ih

theorem spelled_singleton (l : Lexeme) : Spelled [l] l.text.toList := by
  simpa using spelled_flatMap [l]

/-- One lexeme between two texts, with blanks around it or none. -/
theorem Spelled.join {ls ls' : List Lexeme} {text text' gap gap' : List Char} (h : Spelled ls text) (l : Lexeme)
    (h' : Spelled ls' text') (hg : IsGap gap) (hg' : IsGap gap') :
    Spelled (ls ++ l :: ls') (text ++ (gap ++ (l.text.toList ++ (gap' ++ text')))) :=
  h.append (.next hg (h'.gap_append hg'))

theorem isGap_nil : IsGap [] := by simp [IsGap]

theorem isGap_space : IsGap [' '] := by simp [IsGap, Text.isBlank]

namespace Setting

variable {s : Setting}

/-! ## Texts that are read -/

/-- The row is read as the tree at the level, wherever the input ends, with a kind of token that fits the level. -/
structure ReadsRow (s : Setting) (level : Nat) (lhs : Symbol) (ls : List Lexeme) (e : Expr) : Prop where
  orderly : Lexeme.Orderly ls
  operand : lhs ∈ operandHeads
  signed : Rule.signLevel ≤ level → lhs = .group ∨ lhs = .unary
  grouped : Rule.powerLevel ≤ level → lhs = .group
  reads (stop : Position) : s.Reads stop level lhs ls e

/-- The text spells a row that is read as the tree at the level. -/
structure ReadsText (s : Setting) (level : Nat) (text : List Char) (e : Expr) : Prop where
  total : e.Total
  row : ∃ lhs ls, Spelled ls text ∧ s.ReadsRow level lhs ls e

/-- What is read as a group fits every level. -/
theorem ReadsRow.group {level : Nat} {ls : List Lexeme} {e : Expr} (ho : Lexeme.Orderly ls)
    (h : ∀ stop, s.Reads stop level .group ls e) : s.ReadsRow level .group ls e :=
  ⟨ho, by decide, fun _ => .inl rfl, fun _ => rfl, h⟩

/-- A text that is read at any level is parsed. -/
theorem ReadsText.parse_eq {level : Nat} {text : String} {e : Expr} (h : s.ReadsText level text.toList e) :
    (s.parse .equation text).result = .ok e := by
  obtain ⟨lhs, ls, hspelled, hrow⟩ := h.row
  obtain ⟨tokens, stop, htokens, hwritten⟩ := tokenize_spelled hspelled hrow.orderly.legal hrow.orderly.apart
  unfold Setting.parse
  rw [htokens]
  exact (hrow.reads _).parseTokens_eq hrow.operand h.total.classify_eq hwritten []

namespace ReadsText

variable {level : Nat} {text text' : List Char} {a b e : Expr}

theorem mono (h : s.ReadsText level text e) {level' : Nat} (hl : level' ≤ level) : s.ReadsText level' text e := by
  obtain ⟨lhs, ls, hspelled, hrow⟩ := h.row
  exact ⟨h.total, lhs, ls, hspelled, hrow.orderly, hrow.operand, fun h => hrow.signed (h.trans hl),
    fun h => hrow.grouped (h.trans hl), fun stop => (hrow.reads stop).mono hl⟩

/-! ## Numbers and names -/

theorem number (hs : s.limits = {}) {literal : String} {value : Number} (hn : IsNumeral literal)
    (hv : Number.ofLiteral? literal = some value) :
    s.ReadsText Expr.atomLevel literal.toList (.number literal value) := by
  refine ⟨.number _ _, .group, [⟨.number, literal⟩], spelled_singleton _, .group hn.orderly fun _ => ?_⟩
  exact reads_number hv (by rw [hs]; exact Expr.checkedNumber_unlimited _ _)

theorem word {word : String} (hw : IsWord word) : s.ReadsText Expr.atomLevel word.toList (s.resolve word none) :=
  ⟨.resolve _ _ _, .group, [⟨.identifier, word⟩], spelled_singleton _,
    .group hw.orderly fun _ => reads_identifier (.inl (Nat.le_refl _))⟩

theorem name {name : String} (h : s.Resolves name) : s.ReadsText Expr.atomLevel name.toList (.variable name) := by
  cases h with
  | word hw h =>
    have := word (s := s) hw
    rwa [h] at this
  | @subscript base sub hb hsub h =>
    have hread : ∃ symbol : Symbol, Lexeme.Orderly [⟨symbol, sub⟩] ∧
        ∀ stop, s.Reads stop Expr.atomLevel .group [⟨.identifier, base⟩, .mark .subscript, ⟨symbol, sub⟩]
          (.variable (base ++ "_" ++ sub)) := by
      rcases hsub with hw | hn
      · exact ⟨.identifier, hw.orderly, fun _ => reads_subscript (.inr ⟨rfl, rfl⟩) h⟩
      · exact ⟨.number, hn.orderly, fun _ => reads_subscript (.inl ⟨rfl, rfl⟩) h⟩
    obtain ⟨symbol, ho, hread⟩ := hread
    refine ⟨.name _, .group, _, ?_, .group (hb.orderly.join (by decide) ho) hread⟩
    simpa [Lexeme.mark] using spelled_flatMap [⟨.identifier, base⟩, .mark .subscript, ⟨symbol, sub⟩]

/-! ## Brackets -/

theorem parentheses (h : s.ReadsText level text e) :
    s.ReadsText Expr.atomLevel ('(' :: (text ++ [')'])) e := by
  obtain ⟨lhs, ls, hspelled, hrow⟩ := h.row
  refine ⟨h.total, .group, .mark .leftParen :: (ls ++ [.mark .rightParen]), ?_, .group ?_ ?_⟩
  · exact (spelled_singleton (.mark .leftParen)).append (hspelled.append (spelled_singleton (.mark .rightParen)))
  · exact .mark_cons (by decide) (hrow.orderly.append_mark (by decide))
  · exact fun stop => (hrow.reads stop).parentheses hrow.operand

theorem bars (h : s.ReadsText level text e) :
    s.ReadsText Expr.atomLevel ('|' :: (text ++ ['|'])) (.absolute e) := by
  obtain ⟨lhs, ls, hspelled, hrow⟩ := h.row
  refine ⟨.absolute h.total, .group, .mark .bar :: (ls ++ [.mark .bar]), ?_, .group ?_ ?_⟩
  · exact (spelled_singleton (.mark .bar)).append (hspelled.append (spelled_singleton (.mark .bar)))
  · exact .mark_cons (by decide) (hrow.orderly.append_mark (by decide))
  · exact fun stop => (hrow.reads stop).bars hrow.operand

/-! ## Operations -/

theorem minus (h : s.ReadsText Rule.signLevel text e) :
    s.ReadsText Rule.signLevel ('-' :: text) (.neg e) := by
  obtain ⟨lhs, ls, hspelled, hrow⟩ := h.row
  refine ⟨.neg h.total, .unary, .mark .minus :: ls, (spelled_singleton (.mark .minus)).append hspelled, ?_⟩
  refine ⟨.mark_cons (by decide) hrow.orderly, by decide, fun _ => .inr rfl, fun h => absurd h (by decide), ?_⟩
  exact fun stop => (hrow.reads stop).sign (hrow.signed (Nat.le_refl _)) (.inr rfl)

theorem factorial (hs : s.limits = {}) (h : s.ReadsText Rule.factorialLevel text e) :
    s.ReadsText Rule.factorialLevel (text ++ ['!']) (.factorial e (1 / 0)) := by
  obtain ⟨lhs, ls, hspelled, hrow⟩ := h.row
  obtain rfl := hrow.grouped (by decide)
  refine ⟨.factorial h.total, .group, ls ++ [.mark .factorial], hspelled.append (spelled_singleton _), ?_⟩
  refine .group (hrow.orderly.append_mark (by decide)) fun stop => ?_
  have hread := (hrow.reads stop).factorial (by rw [hs]; exact Expr.checkedFactorial_unlimited e)
  rwa [hs] at hread

theorem power (hs : s.limits = {}) (ha : s.ReadsText (Rule.powerLevel + 1) text a)
    (hb : s.ReadsText Rule.powerLevel text' b) :
    s.ReadsText Rule.powerLevel (text ++ '^' :: text') (.power a b (1 / 0)) := by
  obtain ⟨lhs, ls, hspelled, hrow⟩ := ha.row
  obtain ⟨lhs', ls', hspelled', hrow'⟩ := hb.row
  obtain rfl := hrow.grouped (by decide)
  obtain rfl := hrow'.grouped (by decide)
  refine ⟨.power ha.total hb.total, .group, ls ++ .mark .power :: ls', ?_, .group ?_ fun stop => ?_⟩
  · exact hspelled.join (.mark .power) hspelled' isGap_nil isGap_nil
  · exact hrow.orderly.join (by decide) hrow'.orderly
  · have hread := (hrow.reads stop).power (hrow'.reads stop) (by rw [hs]; exact Expr.checkedPower_unlimited a b)
    rwa [hs] at hread

theorem binary {op : Operator} {gap : List Char} (hg : IsGap gap) (ha : s.ReadsText op.level text a)
    (hb : s.ReadsText (op.level + 1) text' b) :
    s.ReadsText op.level (text ++ (gap ++ (op.symbol.toList ++ (gap ++ text')))) (.binary op a b) := by
  obtain ⟨lhs, ls, hspelled, hrow⟩ := ha.row
  obtain ⟨lhs', ls', hspelled', hrow'⟩ := hb.row
  have hmark : (Lexeme.mark op.token).text = op.symbol := by cases op <;> rfl
  have htoken : op.token ∈ Lexeme.marks := by cases op <;> decide
  have hlevel : op.level < Rule.signLevel := by cases op <;> decide
  have hjoin := hspelled.join (.mark op.token) hspelled' hg hg
  rw [hmark] at hjoin
  refine ⟨.binary ha.total hb.total, .expression, ls ++ .mark op.token :: ls', hjoin, ?_⟩
  refine ⟨hrow.orderly.join htoken hrow'.orderly, by decide, fun h => ?_, fun h => ?_, fun stop => ?_⟩
  · exact absurd h (by omega)
  · exact absurd (h.trans' (by decide : Rule.signLevel ≤ Rule.powerLevel)) (by omega)
  · exact (hrow.reads stop).binary hrow.operand (hrow'.reads stop) hrow'.operand

end ReadsText

end Setting

end Formula
