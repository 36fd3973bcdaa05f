import Formula.Proofs.Expr.Scene

/-!
# Building blocks of reductions

When the actions that reductions are put together from succeed, and with what: a row of actions (`Build.bind_eq_ok`),
a look at a place of the phrase (`Phrase.expr_eq_ok`), and the nodes that are checked against a limit
(`Expr.checkedPower_eq_ok`). Each is an equivalence, so that it can be used in both directions.
-/

namespace Formula

namespace Build

variable {α β : Type} {names names' : List String}

/-- An action of two parts succeeds when both do. -/
theorem bind_eq_ok {x : Build α} {f : α → Build β} {b : β} :
    (x >>= f) names = (.ok b, names') ↔
      ∃ a between, x names = (.ok a, between) ∧ f a between = (.ok b, names') := by
  have hbind : (x >>= f) names = match x names with
    | (.ok a, between) => f a between
    | (.error e, between) => (.error e, between) := by
    show (match x names with
      | (a, names) => ExceptT.bindCont f a names) = _
    obtain ⟨_ | _, _⟩ := x names <;> rfl
  rw [hbind]
  obtain ⟨e | a, between⟩ := x names
  · constructor
    · intro h
      cases h
    · rintro ⟨_, _, h, -⟩
      cases h
  · constructor
    · exact fun h => ⟨a, between, rfl, h⟩
    · rintro ⟨_, _, h, h'⟩
      cases h
      exact h'

theorem pure_eq_ok {a b : α} : (pure a : Build α) names = (.ok b, names') ↔ a = b ∧ names = names' := by
  constructor
  · intro h
    cases h
    exact ⟨rfl, rfl⟩
  · rintro ⟨rfl, rfl⟩
    rfl

theorem throw_eq_ok {e : Error} {b : α} : (throw e : Build α) names = (.ok b, names') ↔ False :=
  ⟨(by intro h; cases h), False.elim⟩

theorem ofExcept_eq_ok {x : Except Error α} {b : α} :
    Build.ofExcept x names = (.ok b, names') ↔ x = .ok b ∧ names = names' :=
  Prod.ext_iff

end Build

namespace Phrase

variable {p : Phrase} {names names' : List String}

/-- The token at a place carries the tree. -/
def Tree (p : Phrase) (place : Nat) (e : Expr) : Prop := ∃ t, p.tokens[place]? = some t ∧ t.payload = .expr e

/-- The token at a place carries the arguments. -/
def Trees (p : Phrase) (place : Nat) (es : List Expr) : Prop := ∃ t, p.tokens[place]? = some t ∧ t.payload = .args es

/-- The token at a place has the text. -/
def Text (p : Phrase) (place : Nat) (text : String) : Prop := ∃ t, p.tokens[place]? = some t ∧ t.lexeme = text

theorem token_eq_ok {i : Nat} {t : Token} :
    p.token i names = (.ok t, names') ↔ p.tokens[i]? = some t ∧ names = names' := by
  unfold token
  cases p.tokens[i]? with
  | none => simp [Build.throw_eq_ok]
  | some u => simp [Build.pure_eq_ok]

theorem lexeme_eq_ok {i : Nat} {text : String} :
    p.lexeme i names = (.ok text, names') ↔ p.Text i text ∧ names = names' := by
  unfold lexeme Text
  simp only [Build.bind_eq_ok, token_eq_ok, Build.pure_eq_ok]
  aesop

theorem expr_eq_ok {i : Nat} {e : Expr} :
    p.expr i names = (.ok e, names') ↔ p.Tree i e ∧ names = names' := by
  unfold expr Tree
  simp only [Build.bind_eq_ok, token_eq_ok]
  constructor
  · rintro ⟨t, _, ⟨ht, rfl⟩, h⟩
    cases hp : t.payload <;> rw [hp] at h <;> cases h
    exact ⟨⟨t, ht, hp⟩, rfl⟩
  · rintro ⟨⟨t, ht, hp⟩, rfl⟩
    refine ⟨t, names, ⟨ht, rfl⟩, ?_⟩
    rw [hp]
    rfl

theorem args_eq_ok {i : Nat} {es : List Expr} :
    p.args i names = (.ok es, names') ↔ p.Trees i es ∧ names = names' := by
  unfold args Trees
  simp only [Build.bind_eq_ok, token_eq_ok]
  constructor
  · rintro ⟨t, _, ⟨ht, rfl⟩, h⟩
    cases hp : t.payload <;> rw [hp] at h <;> cases h
    exact ⟨⟨t, ht, hp⟩, rfl⟩
  · rintro ⟨⟨t, ht, hp⟩, rfl⟩
    refine ⟨t, names, ⟨ht, rfl⟩, ?_⟩
    rw [hp]
    rfl

end Phrase

namespace Expr

/-- A power is made when its exponent has no value, or one that passes. -/
theorem checkedPower_eq_ok {base exponent e : Expr} {ceiling : Float} :
    checkedPower base exponent ceiling = .ok e ↔
      (∀ v, exponent.evaluate = .ok v → Limits.checkExponent ceiling v = .ok ()) ∧
        e = .power base exponent ceiling := by
  unfold checkedPower
  cases exponent.evaluate with
  | error =>
    constructor
    · rintro ⟨⟩
      exact ⟨fun v hv => (nomatch hv), rfl⟩
    · rintro ⟨-, rfl⟩
      rfl
  | ok v =>
    constructor
    · intro h
      obtain ⟨⟨⟩, hc, he⟩ := LR.Grammar.bind_eq_ok h
      cases he
      exact ⟨fun w hw => by cases hw; exact hc, rfl⟩
    · rintro ⟨hc, rfl⟩
      show (Limits.checkExponent ceiling v >>= fun _ => _) = _
      rw [hc v rfl]
      rfl

theorem checkedFactorial_eq_ok {operand e : Expr} {ceiling : Float} :
    checkedFactorial operand ceiling = .ok e ↔
      (∀ v, operand.evaluate = .ok v → Limits.checkFactorial ceiling v = .ok ()) ∧
        e = .factorial operand ceiling := by
  unfold checkedFactorial
  cases operand.evaluate with
  | error =>
    constructor
    · rintro ⟨⟩
      exact ⟨fun v hv => (nomatch hv), rfl⟩
    · rintro ⟨-, rfl⟩
      rfl
  | ok v =>
    constructor
    · intro h
      obtain ⟨⟨⟩, hc, he⟩ := LR.Grammar.bind_eq_ok h
      cases he
      exact ⟨fun w hw => by cases hw; exact hc, rfl⟩
    · rintro ⟨hc, rfl⟩
      show (Limits.checkFactorial ceiling v >>= fun _ => _) = _
      rw [hc v rfl]
      rfl

theorem checkedNumber_eq_ok {limits : Limits} {literal : String} {value : Number} {e : Expr} :
    checkedNumber limits literal value = .ok e ↔
      limits.checkNumber literal value.toFloat = .ok () ∧ e = .number literal value := by
  unfold checkedNumber
  constructor
  · intro h
    obtain ⟨⟨⟩, hc, he⟩ := LR.Grammar.bind_eq_ok h
    cases he
    exact ⟨hc, rfl⟩
  · rintro ⟨hc, rfl⟩
    rw [hc]
    rfl

end Expr

end Formula
