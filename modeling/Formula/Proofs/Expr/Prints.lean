import Formula.Proofs.Expr.Literals
import Formula.Proofs.Expr.Texts
import Formula.Proofs.Number.Text

/-!
# Texts and what they mean

A text prints a meaning at a level when it is read as a tree at that level, and the tree means what the meaning says, if
none of the literals in it is read as a double (`Setting.Prints`). Signs, operators, brackets and bars put such texts
together, and what is put together means what the operation gives. The text of a number prints the number at the level
that it needs (`Setting.prints_number`): a fraction that of a product, a number with a minus sign that of a sign.
-/

namespace Formula

namespace Expr

/-! ## Meaning -/

/-- The numbers that an arithmetic tree is written with. -/
def literals : Expr → List Number
  | .number _ value => [value]
  | .pos a | .neg a | .absolute a | .factorial a _ => a.literals
  | .binary _ a b | .power a b _ => a.literals ++ b.literals
  | _ => []

/-- The tree is arithmetic and means the number, where its variables stand for the given ones. -/
structure Means (ρ : String → ℚ) (e : Expr) (q : ℚ) : Prop where
  arithmetic : e.Arithmetic
  value : e.rational? ρ = some q

namespace Means

variable {ρ : String → ℚ} {a b : Expr} {p q r : ℚ}

theorem neg (h : a.Means ρ p) : (Expr.neg a).Means ρ (-p) :=
  ⟨h.arithmetic, by rw [rational?, h.value]; rfl⟩

theorem absolute (h : a.Means ρ p) : (Expr.absolute a).Means ρ |p| :=
  ⟨h.arithmetic, by rw [rational?, h.value]; rfl⟩

theorem factorial (h : a.Means ρ p) (hf : Exact.factorial? p = some q) :
    (Expr.factorial a (1 / 0)).Means ρ q :=
  ⟨⟨h.arithmetic, rfl⟩, by rw [rational?, h.value]; exact hf⟩

theorem binary {op : Operator} (ha : a.Means ρ p) (hb : b.Means ρ r) (h : op.rational? p r = some q) :
    (Expr.binary op a b).Means ρ q :=
  ⟨⟨ha.arithmetic, hb.arithmetic⟩, by rw [rational?, ha.value, hb.value]; exact h⟩

theorem power (ha : a.Means ρ p) (hb : b.Means ρ r) (h : Exact.power? p r = some q) :
    (Expr.power a b (1 / 0)).Means ρ q :=
  ⟨⟨ha.arithmetic, hb.arithmetic, rfl⟩, by rw [rational?, ha.value, hb.value]; exact h⟩

end Means

end Expr

/-- Which number something means, where its variables stand for the given ones. -/
abbrev Meaning := (String → ℚ) → ℚ → Prop

/-- The level of what a number is written as. -/
def Number.level : Number → Nat
  | .ratio n d => if d ≠ 1 then Rule.productLevel else if n < 0 then Rule.signLevel else Expr.atomLevel
  | .real x => if Binary.isSigned x then Rule.signLevel else Expr.atomLevel

namespace Setting

/-- The text is read as a tree, which means what the meaning says if its literals are exact. -/
def Prints (s : Setting) (level : Nat) (text : List Char) (M : Meaning) : Prop :=
  ∃ e, s.ReadsText level text e ∧ (Value.AllExact e.literals → ∀ ρ q, M ρ q → e.Means ρ q)

namespace Prints

variable {s : Setting} {level : Nat} {text text' : List Char} {M M' : Meaning}

theorem mono (h : s.Prints level text M) {level' : Nat} (hl : level' ≤ level) : s.Prints level' text M := by
  obtain ⟨e, hread, hmeans⟩ := h
  exact ⟨e, hread.mono hl, hmeans⟩

theorem imp (h : s.Prints level text M) (himp : ∀ ρ q, M' ρ q → M ρ q) : s.Prints level text M' := by
  obtain ⟨e, hread, hmeans⟩ := h
  exact ⟨e, hread, fun hl ρ q hq => hmeans hl ρ q (himp ρ q hq)⟩

/-! ## Operations -/

theorem parentheses (h : s.Prints level text M) : s.Prints Expr.atomLevel ('(' :: (text ++ [')'])) M := by
  obtain ⟨e, hread, hmeans⟩ := h
  exact ⟨e, hread.parentheses, hmeans⟩

theorem bars (h : s.Prints level text M) :
    s.Prints Expr.atomLevel ('|' :: (text ++ ['|'])) fun ρ q => ∃ p, M ρ p ∧ |p| = q := by
  obtain ⟨e, hread, hmeans⟩ := h
  refine ⟨_, hread.bars, fun hl ρ q ⟨p, hp, hq⟩ => hq ▸ (hmeans hl ρ p hp).absolute⟩

theorem minus (h : s.Prints Rule.signLevel text M) :
    s.Prints Rule.signLevel ('-' :: text) fun ρ q => M ρ (-q) := by
  obtain ⟨e, hread, hmeans⟩ := h
  exact ⟨_, hread.minus, fun hl ρ q hq => neg_neg q ▸ (hmeans hl ρ (-q) hq).neg⟩

theorem factorial (hs : s.limits = {}) (h : s.Prints Rule.factorialLevel text M) :
    s.Prints Rule.factorialLevel (text ++ ['!']) fun ρ q => ∃ p, M ρ p ∧ Exact.factorial? p = some q := by
  obtain ⟨e, hread, hmeans⟩ := h
  exact ⟨_, hread.factorial hs, fun hl ρ q ⟨p, hp, hq⟩ => (hmeans hl ρ p hp).factorial hq⟩

theorem power (hs : s.limits = {}) (h : s.Prints (Rule.powerLevel + 1) text M)
    (h' : s.Prints Rule.powerLevel text' M') :
    s.Prints Rule.powerLevel (text ++ '^' :: text') fun ρ q =>
      ∃ p r, M ρ p ∧ M' ρ r ∧ Exact.power? p r = some q := by
  obtain ⟨e, hread, hmeans⟩ := h
  obtain ⟨e', hread', hmeans'⟩ := h'
  refine ⟨_, hread.power hs hread', fun hl ρ q ⟨p, r, hp, hr, hq⟩ => ?_⟩
  obtain ⟨hl, hl'⟩ := Value.AllExact.append hl
  exact (hmeans hl ρ p hp).power (hmeans' hl' ρ r hr) hq

theorem binary {op : Operator} {gap : List Char} (hg : IsGap gap) (h : s.Prints op.level text M)
    (h' : s.Prints (op.level + 1) text' M') :
    s.Prints op.level (text ++ (gap ++ (op.symbol.toList ++ (gap ++ text')))) fun ρ q =>
      ∃ p r, M ρ p ∧ M' ρ r ∧ op.rational? p r = some q := by
  obtain ⟨e, hread, hmeans⟩ := h
  obtain ⟨e', hread', hmeans'⟩ := h'
  refine ⟨_, hread.binary hg hread', fun hl ρ q ⟨p, r, hp, hr, hq⟩ => ?_⟩
  obtain ⟨hl, hl'⟩ := Value.AllExact.append hl
  exact (hmeans hl ρ p hp).binary (hmeans' hl' ρ r hr) hq

/-- The number that comes of another one by a row of operations, each with an operand of its own. -/
inductive Chain {α : Type} (op : α → Operator) (mean : α → Meaning) (ρ : String → ℚ) : ℚ → List α → ℚ → Prop where
  | nil (p : ℚ) : Chain op mean ρ p [] p
  | cons {p q r t : ℚ} {a : α} {as : List α} (ha : mean a ρ r) (h : (op a).rational? p r = some t)
      (has : Chain op mean ρ t as q) : Chain op mean ρ p (a :: as) q

/-- Operators of one level in a row bind from the left. -/
theorem chain {α : Type} (op : α → Operator) {operand : α → List Char} {mean : α → Meaning} {gap : List Char}
    (hg : IsGap gap) {as : List α} (hop : ∀ a ∈ as, (op a).level = level)
    (has : ∀ a ∈ as, s.Prints (level + 1) (operand a) (mean a)) (h : s.Prints level text M) :
    s.Prints level (as.foldl (fun front a => front ++ (gap ++ ((op a).symbol.toList ++ (gap ++ operand a)))) text)
      fun ρ q => ∃ p, M ρ p ∧ Chain op mean ρ p as q := by
  induction as generalizing text M with
  | nil =>
    refine h.imp fun ρ q ⟨p, hp, hchain⟩ => ?_
    cases hchain
    exact hp
  | cons a as ih =>
    obtain ⟨rfl, hop⟩ := List.forall_mem_cons.mp hop
    obtain ⟨ha, has⟩ := List.forall_mem_cons.mp has
    refine (ih hop has (h.binary hg ha)).imp fun ρ q ⟨p, hp, hchain⟩ => ?_
    cases hchain with
    | @cons _ _ r t _ _ ha h has => exact ⟨t, ⟨p, r, hp, ha, h⟩, has⟩

/-! ## Names and numbers -/

theorem name {name : String} (h : s.Resolves name) :
    s.Prints Expr.atomLevel name.toList fun ρ q => ρ name = q :=
  ⟨_, .name h, fun _ _ _ hq => ⟨trivial, congrArg some hq⟩⟩

/-- A word is read as something, whatever it means. -/
theorem word {word : String} (h : IsWord word) : s.Prints Expr.atomLevel word.toList fun _ _ => False :=
  ⟨_, .word h, fun _ _ _ hq => hq.elim⟩

/-- A numeral is read as some number. -/
theorem numeral (hs : s.limits = {}) (n : Numeral) : s.Prints Expr.atomLevel n.text fun _ _ => False := by
  have htext : (String.ofList n.text).toList = n.text := String.toList_ofList
  obtain ⟨value, hvalue⟩ := Option.ne_none_iff_exists'.mp (Numeral.ofLiteral?_ne_none ⟨n, htext.symm⟩)
  have hnumeral : IsNumeral (String.ofList n.text) := Lexer.matches_numeral_iff.mpr ⟨n, htext.symm⟩
  exact ⟨_, htext ▸ ReadsText.number hs hnumeral hvalue, fun _ _ _ hq => hq.elim⟩

/-- A natural number is read as itself, unless it is read as a double. -/
theorem nat (hs : s.limits = {}) (n : Nat) : s.Prints Expr.atomLevel (toString n).toList fun _ q => (n : ℚ) = q := by
  have hnumeral : IsNumeral (toString n) := Lexer.matches_numeral_iff.mpr ⟨.ofNat n, Numeral.text_ofNat n⟩
  rcases Numeral.ofLiteral?_ofNat n with ⟨hfits, hvalue⟩ | ⟨x, hvalue⟩
  · refine ⟨_, ReadsText.number hs hnumeral hvalue, fun _ ρ q hq => ⟨⟨rfl, Number.normal_ofInt hfits⟩, ?_⟩⟩
    rw [← hq]
    exact (Number.is_ofInt n).rational?
  · refine ⟨_, ReadsText.number hs hnumeral hvalue, fun hl => ?_⟩
    exact absurd (hl _ List.mem_cons_self) (by simp [Number.isExact])

/-- An integer is written with a minus sign if it is below zero. -/
theorem int (hs : s.limits = {}) (n : Int) :
    s.Prints (if n < 0 then Rule.signLevel else Expr.atomLevel) (toString n).toList fun _ q => (n : ℚ) = q := by
  cases n with
  | ofNat n =>
    have hn : ¬ Int.ofNat n < 0 := Int.not_lt.mpr (Int.natCast_nonneg n)
    rw [if_neg hn]
    exact (nat hs n).imp fun _ _ hq => hq
  | negSucc n =>
    have htext : (toString (Int.negSucc n)).toList = '-' :: (toString (n + 1)).toList := String.toList_append ..
    rw [if_pos (Int.negSucc_lt_zero n), htext]
    refine ((nat hs (n + 1)).mono (by decide)).minus.imp fun _ q hq => ?_
    rw [← hq, Int.cast_negSucc, neg_neg]

/-- A double is written with a minus sign if its sign bit is set. -/
theorem double (hs : s.limits = {}) (x : Float) :
    s.Prints (if Binary.isSigned x then Rule.signLevel else Expr.atomLevel) (renderFloat x).toList
      fun _ _ => False := by
  obtain ⟨size, hsize, htext⟩ := renderFloat_cases x
  have hsize : s.Prints Expr.atomLevel size fun _ _ => False := by
    rcases hsize with ⟨n, rfl⟩ | rfl | rfl
    · exact numeral hs n
    · exact word (by decide)
    · exact word (by decide)
  rcases htext with htext | ⟨hsigned, htext⟩
  · rw [htext]
    exact hsize.mono (by split <;> decide)
  · rw [htext, if_pos hsigned]
    exact (hsize.mono (by decide)).minus

end Prints

/-- A number is written as a product if it has a denominator, and as an integer or a double otherwise. -/
theorem prints_number {s : Setting} (hs : s.limits = {}) (n : Number) :
    s.Prints n.level n.render.toList fun _ q => n.Is q := by
  cases n with
  | real x => exact (Prints.double hs x).imp fun _ _ hq => nomatch hq
  | ratio n d =>
    have hlevel (n : Int) : Rule.signLevel ≤ if n < 0 then Rule.signLevel else Expr.atomLevel := by split <;> decide
    have hint {q : ℚ} (hq : (Number.ratio n d).Is q) : (n : ℚ) / d = q ∧ (d : ℚ) ≠ 0 := by
      rw [Number.Is, Number.ratio.injEq] at hq
      obtain ⟨rfl, rfl⟩ := hq
      exact ⟨(Number.eq_div q).symm, Number.den_cast_ne q⟩
    rw [Number.render, Number.level]
    by_cases hd : d = 1
    · subst hd
      rw [if_pos rfl, if_neg (by decide)]
      refine (Prints.int hs n).imp fun _ q hq => ?_
      rw [← (hint hq).1, Int.cast_one, div_one]
    · rw [if_neg hd, if_pos hd]
      have hnum : s.Prints Operator.div.level _ _ := (Prints.int hs n).mono (Nat.le_of_succ_le (hlevel n))
      have hden : s.Prints (Operator.div.level + 1) _ _ := (Prints.int hs d).mono (hlevel d)
      rw [String.append_assoc, String.toList_append, String.toList_append]
      refine (hnum.binary isGap_nil hden).imp fun _ q hq => ⟨n, d, rfl, rfl, ?_⟩
      obtain ⟨hq, hne⟩ := hint hq
      rw [Operator.rational?, Exact.quotient?, if_neg hne, hq]

end Setting

end Formula
