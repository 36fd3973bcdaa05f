import Formula.Proofs.Expr.Normal
import Formula.Proofs.Value.Rebuild

/-!
# Trees evaluate to settled values

Every step of an evaluation is an operation on values, and these give settled values; calls do so whatever the bodies of
the functions are. So the value of a tree is settled if the constants in it are (`settled_evaluateIn`), and substitution
for symbols that are not free in it gives it back (`replaceAll_evaluate`), unless a product in it fades.
-/

namespace Formula

namespace Expr

/-- The constant that stands at a node is settled. -/
def HasSettled : Expr → Prop
  | .constant _ value => value.Settled
  | _ => True

theorem settled_apply (op : Operator) {a b : Value} (ha : a.Settled) (hb : b.Settled) : (op.apply a b).Settled := by
  cases op
  · exact ha.add hb
  · exact ha.sub hb
  · exact ha.mul hb
  · exact ha.div hb
  · exact ha.mod hb

theorem settled_callFunction (f : Function) {args : List Value} (hargs : ∀ a ∈ args, a.Settled) :
    Gives Value.Settled (callFunction f args) := by
  unfold callFunction
  cases hc : f.call args with
  | error m => exact .error _
  | ok v => exact .ok (Value.settled_call hargs hc)

theorem settled_applyFunction (f : Function) {a : Value} (ha : a.Settled) :
    Gives Value.Settled (applyFunction f a) := by
  unfold applyFunction
  split
  · exact .ok (.function _)
  · exact settled_callFunction f (List.forall_mem_singleton.mpr ha)

mutual

/-- A tree evaluates to a settled value if its constants are settled. -/
theorem settled_evaluateIn {params : List String} :
    (e : Expr) → e.Everywhere HasSettled → Gives Value.Settled (e.evaluateIn params)
  | .number _ value, _ => .ok (.number value)
  | .variable name, _ => .ok (.symbol name)
  | .constant name value, h => by
    refine .ok ?_
    split
    · exact .symbol name
    · exact h.node
  | .function f, _ => .ok (.function f)
  | .pos a, h | .truth a, h => settled_evaluateIn a (h.first rfl)
  | .neg a, h => .bind (settled_evaluateIn a (h.first rfl)) fun _ ha => .ok ha.neg
  | .absolute a, h => .bind (settled_evaluateIn a (h.first rfl)) fun _ ha => .ok ha.abs
  | .setInterval set a, h =>
    .bind (settled_evaluateIn a (h.first rfl)) fun _ ha => .ok (.restrict (.set set) ha)
  | .factorial a _, h => by
    refine .bind (settled_evaluateIn a (h.first rfl)) fun _ ha => ?_
    exact .bind (.check _) fun _ _ => .ok ha.fact
  | .binary op a b, h => by
    refine .bind (settled_evaluateIn a (h.first rfl)) fun _ ha => ?_
    exact .bind (settled_evaluateIn b (h.second rfl)) fun _ hb => .ok (settled_apply op ha hb)
  | .relation op a b, h => by
    refine .bind (settled_evaluateIn a (h.first rfl)) fun _ ha => ?_
    exact .bind (settled_evaluateIn b (h.second rfl)) fun _ hb => .ok (.relate op ha hb)
  | .interval _ a b _, h => by
    refine .bind (settled_evaluateIn a (h.first rfl)) fun _ ha => ?_
    exact .bind (settled_evaluateIn b (h.second rfl)) fun _ hb => .ok (.between ha hb _ _)
  | .limit var a b, h => by
    refine .bind (settled_evaluateIn a (h.first rfl)) fun _ ha => ?_
    exact .bind (settled_evaluateIn b (h.second rfl)) fun _ hb => .ok (.limitOf var ha hb)
  | .power a b _, h => by
    refine .bind (settled_evaluateIn a (h.first rfl)) fun _ ha => ?_
    refine .bind (settled_evaluateIn b (h.second rfl)) fun _ hb => ?_
    exact .bind (.check _) fun _ _ => .ok (ha.pow hb)
  | .compose f a, h => by
    refine .bind (settled_evaluateIn f (h.first rfl)) fun v _ => ?_
    cases v with
    | function g => exact .bind (settled_evaluateIn a (h.second rfl)) fun _ ha => settled_applyFunction g ha
    | _ => exact .error _
  | .definition .., _ => by
    refine .bind (.check _) fun _ _ => ?_
    exact .bind (.check _) fun _ _ => .ok (.function _)
  | .call f args, h => by
    refine .bind (settled_evaluateList args fun _ ha => h.part (List.mem_map_of_mem ha)) fun _ hargs => ?_
    exact settled_callFunction f hargs
  | .big op var a b c, h => by
    refine .bind (settled_evaluateIn a (h.first rfl)) fun _ ha => ?_
    refine .bind (settled_evaluateIn b (h.second rfl)) fun _ hb => ?_
    exact .bind (settled_evaluateIn c (h.third rfl)) fun _ hc => .ok (Value.settled_big op var ha hb hc)

theorem settled_evaluateList {params : List String} :
    (es : List Expr) → (∀ e ∈ es, e.Everywhere HasSettled) →
      Gives (fun vs => ∀ v ∈ vs, Value.Settled v) (evaluateList params es)
  | [], _ => .ok fun _ hv => nomatch hv
  | e :: es, h => by
    refine .bind (settled_evaluateIn e (h e List.mem_cons_self)) fun _ hv => ?_
    refine .bind (settled_evaluateList es fun e he => h e (List.mem_cons_of_mem _ he)) fun _ hvs => ?_
    exact .ok (List.forall_mem_cons.mpr ⟨hv, hvs⟩)

end

/-- Building the value of a tree anew changes nothing, also where symbols are replaced that are not free in it, if no
product in it fades. A product whose factors stay and that does fade always changes. -/
theorem replaceAll_evaluate {e : Expr} {v : Value} (hnormal : e.Everywhere HasNormal)
    (hsettled : e.Everywhere HasSettled) (hv : e.evaluate = .ok v) :
    (v.All (fun w => w.fades = false) →
      (∀ s w, v.containsSymbol s = false → v.subst s w = v) ∧ v.replaceAll [] = v) ∧
    ((∀ f ∈ v.factors, f.All fun w => w.fades = false) → v.fades = true → v.replaceAll [] ≠ v) := by
  have hn : v.Normal := normal_evaluateIn e hnormal v hv
  have hs : v.Settled := settled_evaluateIn e hsettled v hv
  constructor
  · intro hkeeps
    refine ⟨fun s w hfree => ?_, ?_⟩
    · exact Value.replaceWith_eq_self v ⟨hn, hs, hkeeps⟩ (List.forall_mem_singleton.mpr ⟨s, rfl, hfree⟩)
    · exact Value.replaceWith_eq_self v ⟨hn, hs, hkeeps⟩ fun _ hp => nomatch hp
  · intro hkeeps hfades
    exact Value.replaceAll_ne_self hn hfades fun f hf => ⟨(hn.factors f hf).1, hs.factors f hf, hkeeps f hf⟩

/-- The tree of `0 (a b)`. -/
def zeroTimes (a b : Expr) : Expr := .binary .mul (.number "0" .zero) (.binary .mul a b)

/-- The constant of infinity. -/
def inf : Expr := .constant "inf" (.constant .infinity)

/-- `0 (inf x)` stays, whatever is put in the place of `s`; in `0 (x inf)` the product fades. -/
theorem replaceAll_evaluate_zeroTimes :
    (∃ v, (zeroTimes inf (.variable "x")).evaluate = .ok v ∧ v.subst "s" Value.one = v ∧ v.replaceAll [] = v) ∧
    ∃ v, (zeroTimes (.variable "x") inf).evaluate = .ok v ∧ v.fades = true ∧ v.replaceAll [] ≠ v := by
  have hx : (Expr.variable "x").Everywhere HasNormal ∧ (Expr.variable "x").Everywhere HasSettled :=
    ⟨.intro trivial (fun _ h => nomatch h), .intro trivial (fun _ h => nomatch h)⟩
  have hinf : inf.Everywhere HasNormal ∧ inf.Everywhere HasSettled :=
    ⟨.intro (.constant _) (fun _ h => nomatch h), .intro (.leaf rfl rfl) (fun _ h => nomatch h)⟩
  have h0 : (Expr.number "0" .zero).Everywhere HasNormal ∧ (Expr.number "0" .zero).Everywhere HasSettled :=
    ⟨.intro (Number.normal_ofInt (by decide)) (fun _ h => nomatch h), .intro trivial (fun _ h => nomatch h)⟩
  have hbinary {P : Expr → Prop} (hP : ∀ op a b, P (.binary op a b)) {op : Operator} {a b : Expr}
      (ha : a.Everywhere P) (hb : b.Everywhere P) : (Expr.binary op a b).Everywhere P :=
    .intro (hP op a b) (List.forall_mem_cons.mpr ⟨ha, List.forall_mem_singleton.mpr hb⟩)
  have htree {P : Expr → Prop} (hP : ∀ op a b, P (.binary op a b)) {a b : Expr}
      (h0 : (Expr.number "0" .zero).Everywhere P) (ha : a.Everywhere P) (hb : b.Everywhere P) :
      (zeroTimes a b).Everywhere P :=
    hbinary hP h0 (hbinary hP ha hb)
  have hleaf {v : Value} (hv : v.operands = []) (h : v.fades = false) : v.All fun w => w.fades = false :=
    .intro h fun _ hw => nomatch hv ▸ hw
  have hfactors {a b : Value} (ha : a.All fun w => w.fades = false) (hb : b.All fun w => w.fades = false) :
      ∀ f ∈ [Value.zero, a, b], f.All fun w => w.fades = false :=
    List.forall_mem_cons.mpr ⟨hleaf rfl rfl, Value.All.pair ha hb⟩
  have hstays := (replaceAll_evaluate (htree (fun _ _ _ => trivial) h0.1 hinf.1 hx.1)
    (htree (fun _ _ _ => trivial) h0.2 hinf.2 hx.2) rfl).1 (.intro rfl (hfactors (hleaf rfl rfl) (hleaf rfl rfl)))
  have hfades := (replaceAll_evaluate (htree (fun _ _ _ => trivial) h0.1 hx.1 hinf.1)
    (htree (fun _ _ _ => trivial) h0.2 hx.2 hinf.2) rfl).2 (hfactors (hleaf rfl rfl) (hleaf rfl rfl)) rfl
  exact ⟨⟨_, rfl, hstays.1 "s" Value.one rfl, hstays.2⟩, _, rfl, rfl, hfades⟩

/-- In `0 (x inf)` no `s` is free, and yet putting one in its place loses the `x`. -/
theorem replaceAll_loses_symbol :
    let v : Value := .product [Value.zero, .symbol "x", .constant .infinity]
    (zeroTimes (.variable "x") inf).evaluate = .ok v ∧ v.containsSymbol "s" = false ∧
      v.subst "s" Value.one = .product [Value.zero, .constant .infinity] ∧ v.subst "s" Value.one ≠ v ∧
      v.replaceAll [] ≠ v := by
  have hne : Value.product [Value.zero, .constant .infinity] ≠
      .product [Value.zero, .symbol "x", .constant .infinity] := by simp
  exact ⟨rfl, rfl, rfl, hne, hne⟩

end Expr

end Formula
