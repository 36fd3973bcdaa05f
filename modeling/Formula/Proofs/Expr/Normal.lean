import Formula.Proofs.Expr.Everywhere
import Formula.Proofs.Value.Normal

/-!
# Trees evaluate to normal values

Every step of an evaluation is an operation on values, and these keep them normal. So the value of a tree is normal if
the numbers, the constants and the bodies of the functions in it are (`normal_evaluateIn`).
`Value.operations_normal` is the statement for all operations together.
-/

namespace Formula

namespace Expr

/-- The number, the constant or the function that stands at a node is normal. -/
def HasNormal : Expr → Prop
  | .number _ value => value.Normal
  | .constant _ value => value.Normal
  | .function f | .call f _ => f.Normal
  | _ => True

theorem normal_apply (op : Operator) {a b : Value} (ha : a.Normal) (hb : b.Normal) : (op.apply a b).Normal := by
  cases op
  · exact ha.add hb
  · exact ha.sub hb
  · exact ha.mul hb
  · exact ha.div hb
  · exact ha.mod hb

/-! ## Results -/

/-- What is computed, if anything, has the property. -/
def Gives {α : Type} (P : α → Prop) (x : Except Error α) : Prop := ∀ a, x = .ok a → P a

namespace Gives

variable {α β : Type} {P : α → Prop} {Q : β → Prop}

theorem ok {a : α} (h : P a) : Gives P (.ok a) := by
  rintro _ ⟨⟩
  exact h

theorem error (e : Error) : Gives P (.error e) := fun _ h => nomatch h

theorem bind {x : Except Error α} {f : α → Except Error β} (hx : Gives P x) (hf : ∀ a, P a → Gives Q (f a)) :
    Gives Q (x >>= f) := by
  intro b hb
  obtain ⟨a, ha, hb⟩ := Except.bind_eq_ok_iff.mp hb
  exact hf a (hx a ha) b hb

/-- Nothing is asked of a check. -/
theorem check (x : Except Error α) : Gives (fun _ => True) x := fun _ _ => trivial

end Gives

/-! ## Evaluation -/

theorem normal_callFunction {f : Function} (hf : f.Normal) {args : List Value} (hargs : ∀ a ∈ args, a.Normal) :
    Gives Value.Normal (callFunction f args) := by
  unfold callFunction
  cases hc : f.call args with
  | error m => exact .error _
  | ok v => exact .ok (hf.call hargs hc)

theorem normal_applyFunction {f : Function} (hf : f.Normal) {a : Value} (ha : a.Normal) :
    Gives Value.Normal (applyFunction f a) := by
  unfold applyFunction
  split
  · exact .ok (Value.Normal.function.mpr (hf.composed (Value.Normal.function.mp ha)))
  · exact normal_callFunction hf (List.forall_mem_singleton.mpr ha)

mutual

/-- A tree evaluates to a normal value if what stands at its nodes is normal. -/
theorem normal_evaluateIn {params : List String} :
    (e : Expr) → e.Everywhere HasNormal → Gives Value.Normal (e.evaluateIn params)
  | .number .., h => .ok (.number h.node)
  | .variable name, _ => .ok (Value.Normal.symbol name)
  | .constant name value, h => by
    refine .ok ?_
    split
    · exact Value.Normal.symbol name
    · exact h.node
  | .function f, h => .ok (Value.Normal.function.mpr h.node)
  | .pos a, h | .truth a, h => normal_evaluateIn a (h.first rfl)
  | .neg a, h => .bind (normal_evaluateIn a (h.first rfl)) fun _ ha => .ok ha.neg
  | .absolute a, h => .bind (normal_evaluateIn a (h.first rfl)) fun _ ha => .ok ha.abs
  | .setInterval set a, h =>
    .bind (normal_evaluateIn a (h.first rfl)) fun _ ha => .ok (.restrict (.set set) ha)
  | .factorial a _, h => by
    refine .bind (normal_evaluateIn a (h.first rfl)) fun _ ha => ?_
    exact .bind (.check _) fun _ _ => .ok ha.fact
  | .binary op a b, h => by
    refine .bind (normal_evaluateIn a (h.first rfl)) fun _ ha => ?_
    exact .bind (normal_evaluateIn b (h.second rfl)) fun _ hb => .ok (normal_apply op ha hb)
  | .relation op a b, h => by
    refine .bind (normal_evaluateIn a (h.first rfl)) fun _ ha => ?_
    exact .bind (normal_evaluateIn b (h.second rfl)) fun _ hb => .ok (.relate op ha hb)
  | .interval _ a b _, h => by
    refine .bind (normal_evaluateIn a (h.first rfl)) fun _ ha => ?_
    exact .bind (normal_evaluateIn b (h.second rfl)) fun _ hb => .ok (.between ha hb _ _)
  | .limit var a b, h => by
    refine .bind (normal_evaluateIn a (h.first rfl)) fun _ ha => ?_
    exact .bind (normal_evaluateIn b (h.second rfl)) fun _ hb => .ok (.limitOf var ha hb)
  | .power a b _, h => by
    refine .bind (normal_evaluateIn a (h.first rfl)) fun _ ha => ?_
    refine .bind (normal_evaluateIn b (h.second rfl)) fun _ hb => ?_
    exact .bind (.check _) fun _ _ => .ok (ha.pow hb)
  | .compose f a, h => by
    refine .bind (normal_evaluateIn f (h.first rfl)) fun v hv => ?_
    cases v with
    | function g =>
      refine .bind (normal_evaluateIn a (h.second rfl)) fun _ ha => ?_
      exact normal_applyFunction (Value.Normal.function.mp hv) ha
    | _ => exact .error _
  | .definition name ps body, h => by
    refine .bind (.check _) fun names _ => ?_
    refine .bind (normal_evaluateIn body (h.first rfl)) fun _ hbody => .ok ?_
    exact Value.Normal.function.mpr (List.forall_mem_singleton.mpr hbody)
  | .call f args, h => by
    refine .bind (normal_evaluateList args fun _ ha => h.part (List.mem_map_of_mem ha)) fun _ hargs => ?_
    exact normal_callFunction h.node hargs
  | .big op var a b c, h => by
    refine .bind (normal_evaluateIn a (h.first rfl)) fun _ ha => ?_
    refine .bind (normal_evaluateIn b (h.second rfl)) fun _ hb => ?_
    exact .bind (normal_evaluateIn c (h.third rfl)) fun _ hc => .ok (.big op var ha hb hc)

theorem normal_evaluateList {params : List String} :
    (es : List Expr) → (∀ e ∈ es, e.Everywhere HasNormal) →
      Gives (fun vs => ∀ v ∈ vs, Value.Normal v) (evaluateList params es)
  | [], _ => .ok fun _ hv => nomatch hv
  | e :: es, h => by
    refine .bind (normal_evaluateIn e (h e List.mem_cons_self)) fun _ hv => ?_
    refine .bind (normal_evaluateList es fun e he => h e (List.mem_cons_of_mem _ he)) fun _ hvs => ?_
    exact .ok (List.forall_mem_cons.mpr ⟨hv, hvs⟩)

end

end Expr

namespace Value

/-- Every operation on values takes normal values to normal ones, and a tree that is normal at its nodes evaluates to a
normal value. -/
theorem operations_normal {a b c : Value} (ha : a.Normal) (hb : b.Normal) (hc : c.Normal) :
    ((add a b).Normal ∧ (sub a b).Normal ∧ (mul a b).Normal ∧ (div a b).Normal ∧ (pow a b).Normal ∧ (mod a b).Normal ∧
      a.neg.Normal ∧ a.fact.Normal ∧ a.abs.Normal) ∧
    ((∀ op, (relate op a b).Normal) ∧ (∀ leftOpen rightOpen, (between a b leftOpen rightOpen).Normal) ∧
      (restrict a b).Normal ∧ (∀ var, (limitOf var a b).Normal) ∧ ∀ op var, (big op var a b c).Normal) ∧
    (∀ name args, (∀ v ∈ args, v.Normal) → (apply name args).Normal) ∧
    (∀ pairs : List (Value × Value), (∀ p ∈ pairs, p.2.Normal) → (a.replaceAll pairs).Normal) ∧
    (∀ f : Function, f.Normal → ∀ args, (∀ v ∈ args, v.Normal) → ∀ v, f.call args = .ok v → v.Normal) ∧
    ∀ e : Expr, e.Everywhere Expr.HasNormal → ∀ v, e.evaluate = .ok v → v.Normal :=
  ⟨⟨ha.add hb, ha.sub hb, ha.mul hb, ha.div hb, ha.pow hb, ha.mod hb, ha.neg, ha.fact, ha.abs⟩,
    ⟨fun op => .relate op ha hb, ha.between hb, ha.restrict hb, fun var => .limitOf var ha hb,
      fun op var => .big op var ha hb hc⟩,
    fun name _ hargs => .apply name hargs, fun _ hpairs => ha.replaceAll hpairs,
    fun _ hf _ hargs _ hv => hf.call hargs hv, fun e he => Expr.normal_evaluateIn e he⟩

/-- The function that takes a square. -/
def square : Function := .defined "f" [.symbol "u"] (.power (.symbol "u") (int 2))

theorem normal_square : square.Normal := by
  have hu : (Value.symbol "u").Normal := Value.Normal.symbol "u"
  have h2 : (int 2).Normal := .int (by decide)
  refine List.forall_mem_singleton.mpr (.intro ?_ (List.forall_mem_cons.mpr ⟨hu, List.forall_mem_singleton.mpr h2⟩))
  intro n hn
  cases hn
  decide

/-- Zero times infinity is a product that stands, `x + 2` has a square, and the square of 3 stands behind `|x|` in their
sum. -/
theorem operations_normal_square :
    (mul zero (.constant .infinity) = .product [zero, .constant .infinity] ∧
      (mul zero (.constant .infinity)).Normal) ∧
    (∃ v, square.call [add (.symbol "x") (int 2)] = .ok v ∧ v.Normal) ∧
    ∃ v, (Expr.binary .add (.call square [.number "3" (.ofInt 3)]) (.absolute (.variable "x"))).evaluate = .ok v ∧
      v = .sum [.absolute (.symbol "x"), int 9] ∧ v.Normal := by
  have hx : (Value.symbol "x").Normal := Value.Normal.symbol "x"
  have h3 : (Expr.number "3" (.ofInt 3)).Everywhere Expr.HasNormal :=
    .intro (Number.normal_ofInt (by decide)) fun _ h => nomatch h
  have hcall : (Expr.call square [.number "3" (.ofInt 3)]).Everywhere Expr.HasNormal :=
    .intro normal_square (List.forall_mem_singleton.mpr h3)
  have habs : (Expr.absolute (.variable "x")).Everywhere Expr.HasNormal :=
    .intro trivial (List.forall_mem_singleton.mpr (.intro trivial fun _ h => nomatch h))
  obtain ⟨⟨-, -, hmul, -⟩, -⟩ := operations_normal .zero (.constant .infinity) .one
  obtain ⟨⟨hadd, -⟩, -⟩ := operations_normal hx (.int (n := 2) (by decide)) .one
  obtain ⟨-, -, -, -, hcalls, htrees⟩ := operations_normal .zero .zero .zero
  have htree : (Expr.binary .add (.call square [.number "3" (.ofInt 3)]) (.absolute (.variable "x"))).Everywhere
      Expr.HasNormal := .intro trivial (List.forall_mem_cons.mpr ⟨hcall, List.forall_mem_singleton.mpr habs⟩)
  exact ⟨⟨rfl, hmul⟩, ⟨_, rfl, hcalls _ normal_square _ (List.forall_mem_singleton.mpr hadd) _ rfl⟩,
    _, rfl, rfl, htrees _ htree _ rfl⟩

end Value

end Formula
