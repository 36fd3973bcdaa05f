import Formula.Proofs.Expr.Everywhere
import Formula.Proofs.Limits

/-!
# Limits along an evaluation

Where the limits on exponents and factorials are checked. `Meets` are the subtrees that an evaluation comes to, each
with the names that are parameters there. A tree has a value exactly if it has the same value without any ceilings and
every power and factorial that is met keeps to its own (`evaluateIn_eq_ok_iff`): a ceiling is a matter of the node that
carries it, where the exponent or the operand may still be symbolic, and of nothing that comes after. In a tree that was
parsed every node carries the ceiling of the setting (`Setting.parse_ceilings`).
-/

namespace Formula

namespace Expr

/-! ## Ceilings -/

/-- The exponent of a power and the operand of a factorial pass the check against the ceiling of the node. -/
def Within (params : List String) : Expr → Prop
  | .power _ exponent ceiling => ∀ v, exponent.evaluateIn params = .ok v → Limits.checkExponent ceiling v = .ok ()
  | .factorial operand ceiling => ∀ v, operand.evaluateIn params = .ok v → Limits.checkFactorial ceiling v = .ok ()
  | _ => True

/-- Every power and factorial that an evaluation comes to keeps to its ceiling. -/
def Guarded (params : List String) (e : Expr) : Prop := ∀ ps a, Meets params e ps a → a.Within ps

theorem guarded_iff {params : List String} {e : Expr} :
    Guarded params e ↔ e.Within params ∧ ∀ x ∈ e.parts params, Guarded x.1 x.2 := by
  constructor
  · exact fun h => ⟨h _ _ .self, fun x hx ps a hm => h ps a (meets_iff.mpr (.inr ⟨x, hx, hm⟩))⟩
  · rintro ⟨he, h⟩ ps a hm
    obtain ⟨rfl, rfl⟩ | ⟨x, hx, hm⟩ := meets_iff.mp hm
    · exact he
    · exact h x hx ps a hm

theorem checkExponent_eq_ok {ceiling : Float} {v : Value} :
    Limits.checkExponent ceiling v = .ok () ↔ ∀ x, v.toFloat? = some x → ¬ ceiling < x.abs := by
  unfold Limits.checkExponent
  cases v.toFloat? with
  | none => simp
  | some x =>
    by_cases h : ceiling < x.abs <;> simp [h]

theorem checkFactorial_eq_ok {ceiling : Float} {v : Value} :
    Limits.checkFactorial ceiling v = .ok () ↔ ∀ x, v.toFloat? = some x → ¬ ceiling < x.abs := by
  unfold Limits.checkFactorial
  cases v.toFloat? with
  | none => simp
  | some x =>
    by_cases h : ceiling < x.abs <;> simp [h]

mutual

/-- The tree with no ceilings. -/
def unlimited : Expr → Expr
  | .number literal value => .number literal value
  | .variable name => .variable name
  | .constant name value => .constant name value
  | .function f => .function f
  | .pos a => .pos a.unlimited
  | .neg a => .neg a.unlimited
  | .factorial a _ => .factorial a.unlimited (1 / 0)
  | .absolute a => .absolute a.unlimited
  | .binary op a b => .binary op a.unlimited b.unlimited
  | .power a b _ => .power a.unlimited b.unlimited (1 / 0)
  | .compose f a => .compose f.unlimited a.unlimited
  | .relation op a b => .relation op a.unlimited b.unlimited
  | .interval left a b right => .interval left a.unlimited b.unlimited right
  | .setInterval set a => .setInterval set a.unlimited
  | .definition name params body => .definition name params body.unlimited
  | .call f args => .call f (unlimitedList args)
  | .limit target a body => .limit target a.unlimited body.unlimited
  | .big op var a b body => .big op var a.unlimited b.unlimited body.unlimited
  | .truth a => .truth a.unlimited

def unlimitedList : List Expr → List Expr
  | [] => []
  | e :: es => e.unlimited :: unlimitedList es

end

mutual

/-- A tree has a value exactly if it has this value without ceilings and keeps to all that are met. -/
theorem evaluateIn_eq_ok_iff {params : List String} {v : Value} :
    (e : Expr) → (e.evaluateIn params = .ok v ↔ e.unlimited.evaluateIn params = .ok v ∧ Guarded params e)
  | .number .. | .variable _ | .constant .. | .function _ => by
    rw [guarded_iff]
    simp only [unlimited, Within, parts, List.not_mem_nil, false_imp_iff, implies_true, and_self, and_true]
  | .pos a | .truth a => by
    rw [guarded_iff]
    simp only [unlimited, evaluateIn, Within, parts, List.forall_mem_singleton, true_and]
    exact evaluateIn_eq_ok_iff a
  | .neg a | .absolute a | .setInterval _ a => by
    rw [guarded_iff]
    simp only [unlimited, evaluateIn, Within, parts, List.forall_mem_singleton, true_and, Except.bind_eq_ok_iff,
      evaluateIn_eq_ok_iff a]
    exact ⟨fun ⟨x, ⟨hx, hg⟩, h⟩ => ⟨⟨x, hx, h⟩, hg⟩, fun ⟨⟨x, hx, h⟩, hg⟩ => ⟨x, ⟨hx, hg⟩, h⟩⟩
  | .factorial a ceiling => by
    rw [guarded_iff]
    simp only [unlimited, evaluateIn, Within, parts, List.forall_mem_singleton, Except.bind_eq_ok_iff,
      evaluateIn_eq_ok_iff a, Limits.checkFactorial_unlimited]
    constructor
    · rintro ⟨x, ⟨hx, hg⟩, ⟨⟩, hc, h⟩
      refine ⟨⟨x, hx, ⟨⟩, trivial, h⟩, fun v hv => ?_, hg⟩
      obtain rfl := Except.ok.inj (hx.symm.trans hv.1)
      exact hc
    · rintro ⟨⟨x, hx, ⟨⟩, -, h⟩, hc, hg⟩
      exact ⟨x, ⟨hx, hg⟩, ⟨⟩, hc x ⟨hx, hg⟩, h⟩
  | .power a b ceiling => by
    rw [guarded_iff]
    simp only [unlimited, evaluateIn, Within, parts, List.forall_mem_cons, List.not_mem_nil, false_imp_iff,
      implies_true, and_true, Except.bind_eq_ok_iff, evaluateIn_eq_ok_iff a, evaluateIn_eq_ok_iff b,
      Limits.checkExponent_unlimited]
    constructor
    · rintro ⟨x, ⟨hx, hga⟩, y, ⟨hy, hgb⟩, ⟨⟩, hc, h⟩
      refine ⟨⟨x, hx, y, hy, ⟨⟩, trivial, h⟩, fun v hv => ?_, hga, hgb⟩
      obtain rfl := Except.ok.inj (hy.symm.trans hv.1)
      exact hc
    · rintro ⟨⟨x, hx, y, hy, ⟨⟩, -, h⟩, hc, hga, hgb⟩
      exact ⟨x, ⟨hx, hga⟩, y, ⟨hy, hgb⟩, ⟨⟩, hc y ⟨hy, hgb⟩, h⟩
  | .binary _ a b | .relation _ a b | .interval _ a b _ | .limit _ a b => by
    rw [guarded_iff]
    simp only [unlimited, evaluateIn, Within, parts, List.forall_mem_cons, List.not_mem_nil, false_imp_iff,
      implies_true, and_true, true_and, Except.bind_eq_ok_iff, evaluateIn_eq_ok_iff a, evaluateIn_eq_ok_iff b]
    constructor
    · rintro ⟨x, ⟨hx, hga⟩, y, ⟨hy, hgb⟩, h⟩
      exact ⟨⟨x, hx, y, hy, h⟩, hga, hgb⟩
    · rintro ⟨⟨x, hx, y, hy, h⟩, hga, hgb⟩
      exact ⟨x, ⟨hx, hga⟩, y, ⟨hy, hgb⟩, h⟩
  | .compose f a => by
    rw [guarded_iff]
    simp only [unlimited, evaluateIn, Within, parts, List.forall_mem_cons, List.not_mem_nil, false_imp_iff,
      implies_true, and_true, true_and, Except.bind_eq_ok_iff, evaluateIn_eq_ok_iff f]
    constructor
    · rintro ⟨x, ⟨hx, hgf⟩, h⟩
      cases x with
      | function g =>
        obtain ⟨y, hy, h⟩ := Except.bind_eq_ok_iff.mp h
        obtain ⟨hy, hga⟩ := (evaluateIn_eq_ok_iff a).mp hy
        exact ⟨⟨_, hx, Except.bind_eq_ok_iff.mpr ⟨y, hy, h⟩⟩, hgf, hga⟩
      | _ => cases h
    · rintro ⟨⟨x, hx, h⟩, hgf, hga⟩
      refine ⟨x, ⟨hx, hgf⟩, ?_⟩
      cases x with
      | function g =>
        obtain ⟨y, hy, h⟩ := Except.bind_eq_ok_iff.mp h
        exact Except.bind_eq_ok_iff.mpr ⟨y, (evaluateIn_eq_ok_iff a).mpr ⟨hy, hga⟩, h⟩
      | _ => cases h
  | .definition _ ps body => by
    rw [guarded_iff]
    simp only [unlimited, evaluateIn, Within, parts, List.forall_mem_singleton, true_and, Except.bind_eq_ok_iff,
      evaluateIn_eq_ok_iff body]
    constructor
    · rintro ⟨names, hn, x, ⟨hx, hg⟩, h⟩
      rw [← parameterNames_eq_filterMap hn]
      exact ⟨⟨names, hn, x, hx, h⟩, hg⟩
    · rintro ⟨⟨names, hn, x, hx, h⟩, hg⟩
      rw [← parameterNames_eq_filterMap hn] at hg
      exact ⟨names, hn, x, ⟨hx, hg⟩, h⟩
  | .call _ args => by
    rw [guarded_iff]
    simp only [unlimited, evaluateIn, Within, parts, List.forall_mem_map, true_and, Except.bind_eq_ok_iff,
      evaluateList_eq_ok_iff args]
    exact ⟨fun ⟨x, ⟨hx, hg⟩, h⟩ => ⟨⟨x, hx, h⟩, hg⟩, fun ⟨⟨x, hx, h⟩, hg⟩ => ⟨x, ⟨hx, hg⟩, h⟩⟩
  | .big _ _ a b body => by
    rw [guarded_iff]
    simp only [unlimited, evaluateIn, Within, parts, List.forall_mem_cons, List.not_mem_nil, false_imp_iff,
      implies_true, and_true, true_and, Except.bind_eq_ok_iff, evaluateIn_eq_ok_iff a, evaluateIn_eq_ok_iff b,
      evaluateIn_eq_ok_iff body]
    constructor
    · rintro ⟨x, ⟨hx, hga⟩, y, ⟨hy, hgb⟩, z, ⟨hz, hgc⟩, h⟩
      exact ⟨⟨x, hx, y, hy, z, hz, h⟩, hga, hgb, hgc⟩
    · rintro ⟨⟨x, hx, y, hy, z, hz, h⟩, hga, hgb, hgc⟩
      exact ⟨x, ⟨hx, hga⟩, y, ⟨hy, hgb⟩, z, ⟨hz, hgc⟩, h⟩

/-- Arguments have values exactly if they have these values without ceilings and keep to all that are met. -/
theorem evaluateList_eq_ok_iff {params : List String} {vs : List Value} :
    (es : List Expr) → (evaluateList params es = .ok vs ↔
      evaluateList params (unlimitedList es) = .ok vs ∧ ∀ e ∈ es, Guarded params e)
  | [] => by simp [unlimitedList]
  | e :: es => by
    simp only [unlimitedList, evaluateList, Except.bind_eq_ok_iff, evaluateIn_eq_ok_iff e, evaluateList_eq_ok_iff es,
      List.forall_mem_cons]
    constructor
    · rintro ⟨x, ⟨hx, hg⟩, xs, ⟨hxs, hgs⟩, h⟩
      exact ⟨⟨x, hx, xs, hxs, h⟩, hg, hgs⟩
    · rintro ⟨⟨x, hx, xs, hxs, h⟩, hg, hgs⟩
      exact ⟨x, ⟨hx, hg⟩, xs, ⟨hxs, hgs⟩, h⟩

end

/-! ## Ceilings of a parsed tree -/

/-- A power and a factorial carry the ceilings of the limits. -/
def HasCeiling (limits : Limits) : Expr → Prop
  | .power _ _ ceiling => ceiling = limits.exponent
  | .factorial _ ceiling => ceiling = limits.factorial
  | _ => True

/-- All powers and factorials that an evaluation can come to carry the ceilings of the limits. -/
inductive Ceiled (limits : Limits) : Expr → Prop where
  | intro {e : Expr} (he : e.HasCeiling limits) (h : ∀ x ∈ e.parts [], Ceiled limits x.2) : Ceiled limits e

namespace Ceiled

variable {limits : Limits} {e : Expr}

theorem hasCeiling (h : e.Ceiled limits) : e.HasCeiling limits := by
  cases h
  assumption

theorem meets (h : e.Ceiled limits) {params ps : List String} {a : Expr} (hm : Meets params e ps a) :
    a.Ceiled limits := by
  induction hm with
  | self => exact h
  | part _ hb ih =>
    obtain ⟨_, hb⟩ := @exists_mem_parts _ _ [] _ _ hb
    cases ih with
    | intro _ h => exact h _ hb

end Ceiled

theorem Everywhere.ceiled {limits : Limits} {e : Expr} (h : e.Everywhere (HasCeiling limits)) : e.Ceiled limits := by
  induction h with
  | intro he _ ih => exact .intro he ih

end Expr

namespace Setting

variable {s : Setting}

/-- In a tree that was parsed every power and factorial carries the ceilings of the setting. -/
theorem parse_ceilings {goal : Goal} {text : String} {e : Expr} (h : (s.parse goal text).result = .ok e) :
    e.Ceiled s.limits := by
  have hnode : ∀ a : Expr, a.Built s → a.HasCeiling s.limits := by
    intro a ha
    cases a with
    | power | factorial => exact ha.1
    | _ => trivial
  exact (parse_everywhere hnode (fun _ _ _ => trivial) h).ceiled

/-- A parsed tree has a value exactly if it has this value without any ceilings, and at every power and every factorial
that its evaluation comes to the exponent or the operand is not above the limit, as far as it is a number there. -/
theorem parse_evaluate_iff {goal : Goal} {text : String} {e : Expr} (h : (s.parse goal text).result = .ok e)
    (v : Value) :
    e.evaluate = .ok v ↔ e.unlimited.evaluate = .ok v ∧
      (∀ params a b ceiling, Expr.Meets [] e params (.power a b ceiling) →
        ∀ w x, b.evaluateIn params = .ok w → w.toFloat? = some x → ¬ s.limits.exponent < x.abs) ∧
      ∀ params a ceiling, Expr.Meets [] e params (.factorial a ceiling) →
        ∀ w x, a.evaluateIn params = .ok w → w.toFloat? = some x → ¬ s.limits.factorial < x.abs := by
  have hceiled := parse_ceilings h
  unfold Expr.evaluate
  rw [Expr.evaluateIn_eq_ok_iff]
  refine and_congr_right fun _ => ⟨fun hg => ⟨?_, ?_⟩, fun ⟨hpower, hfactorial⟩ params a hm => ?_⟩
  · intro params a b ceiling hm w x hw
    obtain rfl : ceiling = s.limits.exponent := (hceiled.meets hm).hasCeiling
    exact Expr.checkExponent_eq_ok.mp (hg _ _ hm w hw) x
  · intro params a ceiling hm w x hw
    obtain rfl : ceiling = s.limits.factorial := (hceiled.meets hm).hasCeiling
    exact Expr.checkFactorial_eq_ok.mp (hg _ _ hm w hw) x
  · cases a with
    | power a b ceiling =>
      obtain rfl : ceiling = s.limits.exponent := (hceiled.meets hm).hasCeiling
      exact fun w hw => Expr.checkExponent_eq_ok.mpr fun x hx => hpower _ _ _ _ hm w x hw hx
    | factorial a ceiling =>
      obtain rfl : ceiling = s.limits.factorial := (hceiled.meets hm).hasCeiling
      exact fun w hw => Expr.checkFactorial_eq_ok.mpr fun x hx => hfactorial _ _ _ hm w x hw hx
    | _ => trivial

/-- A text that is read as a tree with a value. -/
theorem exists_value {goal : Goal} {text : String} {p : Value → Bool}
    (h : ((s.parse goal text).result.toOption.bind (·.evaluate.toOption)).any p = true) :
    ∃ e v, (s.parse goal text).result = .ok e ∧ e.evaluate = .ok v ∧ p v = true := by
  cases he : (s.parse goal text).result with
  | error => simp [he, Except.toOption] at h
  | ok e =>
    cases hv : e.evaluate with
    | error => simp [he, hv, Except.toOption] at h
    | ok v => exact ⟨e, v, rfl, hv, by simpa [he, hv, Except.toOption] using h⟩

/-- The factorials up to that of six are summed below a limit of five, which refuses the last of them by itself. -/
theorem sum_of_factorials :
    let s : Setting := { limits := { factorial := 5 } }
    ((s.parse .equation "sum_(k=1)^\x7b6\x7d k!").result.toOption.bind (·.evaluate.toOption)).any (· == .int 873) = true ∧
      (s.parse .equation "6!").result.toOption = none := by
  have h : let s : Setting := { limits := { factorial := 5 } }
      ((s.parse .equation "sum_(k=1)^\x7b6\x7d k!").result.toOption.bind (·.evaluate.toOption)).any (· == .int 873) = true ∧
        (s.parse .equation "6!").result.toOption.isNone = true := by
    decide +kernel
  exact ⟨h.1, Option.isNone_iff_eq_none.mp h.2⟩

/-- The operand of the factorial in the sum is a variable where it is checked. -/
theorem evaluate_sum_of_factorials :
    let s : Setting := { limits := { factorial := 5 } }
    ∃ e v, (s.parse .equation "sum_(k=1)^\x7b6\x7d k!").result = .ok e ∧ e.evaluate = .ok v ∧
      ∀ params a ceiling, Expr.Meets [] e params (.factorial a ceiling) →
        ∀ w x, a.evaluateIn params = .ok w → w.toFloat? = some x → ¬ s.limits.factorial < x.abs := by
  obtain ⟨e, v, he, hv, -⟩ := exists_value sum_of_factorials.1
  exact ⟨e, v, he, hv, ((parse_evaluate_iff he v).mp hv).2.2⟩

/-- A limit on factorials does not reach the terms of a sum. -/
theorem factorial_limit_in_sum :
    let s : Setting := { limits := { factorial := 5 } }
    (∃ e v, (s.parse .equation "sum_(k=1)^\x7b6\x7d k!").result = .ok e ∧ e.evaluate = .ok v ∧
      (v == .int 873) = true) ∧ ∀ e, (s.parse .equation "6!").result ≠ .ok e := by
  refine ⟨exists_value sum_of_factorials.1, fun e he => ?_⟩
  have hnone := sum_of_factorials.2
  rw [he] at hnone
  cases hnone

end Setting

end Formula
