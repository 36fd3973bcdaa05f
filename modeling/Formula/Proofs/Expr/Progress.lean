import Formula.Proofs.Expr.Guards
import Formula.Session

/-!
# A tree that parses also evaluates

What the parser checks while it builds a tree is what evaluation checks again: the ceilings of powers and factorials
and the numbers of arguments of calls (`Expr.Sure`). One thing is not checked beforehand, since it depends on whether
the operand is a function: a function in front of `@` may not take one argument. So an evaluation of a tree that is
sure everywhere fails with this mismatch or not at all (`Expr.fails_evaluateIn`).

The functions of a setting are builtins and definitions, whatever was added to it (`Setting.Reached.isSimple`): a
composition is a value, but no text defines a name as one. A call of such a function succeeds when the number of its
arguments fits.
-/

namespace Formula

namespace Callable

/-- A builtin or a definition. -/
def IsSimple (f : Function) : Prop := ∀ outer inner, f ≠ .composed outer inner

/-- A function that is no composition has a value at arguments of a number that it takes. -/
theorem exists_call {f : Function} (hf : f.IsSimple) {args : List Value} (ha : f.accepts args.length = true) :
    ∃ v, f.call args = .ok v := by
  have hc : f.checkArity args.length = .ok () := if_pos ha
  cases f with
  | builtin | defined =>
    rw [call, hc]
    exact ⟨_, rfl⟩
  | composed outer inner => exact absurd rfl (hf outer inner)

end Callable

namespace Expr

/-- What the parser makes sure of at a node. -/
def Sure : Expr → Prop
  | .power _ exponent ceiling => ∀ v, exponent.evaluate = .ok v → Limits.checkExponent ceiling v = .ok ()
  | .factorial operand ceiling => ∀ v, operand.evaluate = .ok v → Limits.checkFactorial ceiling v = .ok ()
  | .compose f _ => ∃ g, f = .function g
  | .call f args => f.IsSimple ∧ f.accepts args.length = true
  | .definition .. => False
  | _ => True

/-- The mismatch is that of a function in front of `@` somewhere in the tree, applied to a value that is no function. -/
def Misapplies (e : Expr) (m : ArityMismatch) : Prop :=
  ∃ f a v, Meets [] e [] (.compose (.function f) a) ∧ a.evaluate = .ok v ∧ (∀ g, v ≠ .function g) ∧
    f.call [v] = .error m

theorem Misapplies.part {e a : Expr} {m : ArityMismatch} (ha : ([], a) ∈ e.parts []) (h : a.Misapplies m) :
    e.Misapplies m := by
  obtain ⟨f, b, v, hm, h⟩ := h
  exact ⟨f, b, v, meets_iff.mpr (.inr ⟨_, ha, hm⟩), h⟩

/-! ## Evaluations that may mismatch -/

/-- The result is no error but a mismatch of the given kind. -/
def Fails {α : Type} (B : ArityMismatch → Prop) (x : Except Error α) : Prop :=
  ∀ e, x = .error e → ∃ m, e = .arityMismatch m ∧ B m

namespace Fails

variable {α β : Type} {B C : ArityMismatch → Prop}

theorem ok (a : α) : Fails B (.ok a) := fun _ h => nomatch h

theorem mono {x : Except Error α} (h : Fails B x) (hB : ∀ m, B m → C m) : Fails C x := fun e he =>
  let ⟨m, hm, hb⟩ := h e he
  ⟨m, hm, hB m hb⟩

theorem bind {x : Except Error α} {f : α → Except Error β} (hx : Fails B x) (hf : ∀ a, x = .ok a → Fails B (f a)) :
    Fails B (x >>= f) := by
  intro e he
  cases x with
  | error e' =>
    cases he
    exact hx _ rfl
  | ok a => exact hf a rfl e he

theorem part {e a : Expr} {x : Except Error Value} (ha : ([], a) ∈ e.parts []) (h : Fails a.Misapplies x) :
    Fails e.Misapplies x := h.mono fun _ => .part ha

end Fails

theorem length_of_evaluateList {params : List String} {es : List Expr} {vs : List Value}
    (h : evaluateList params es = .ok vs) : vs.length = es.length := by
  induction es generalizing vs with
  | nil =>
    cases h
    rfl
  | cons e es ih =>
    rw [evaluateList] at h
    obtain ⟨v, -, h⟩ := Except.bind_eq_ok_iff.mp h
    obtain ⟨ws, hws, h⟩ := Except.bind_eq_ok_iff.mp h
    cases h
    rw [List.length_cons, List.length_cons, ih hws]

mutual

/-- A tree that is sure everywhere has a value, unless a function in it is applied to one argument that takes another
number of them. -/
theorem fails_evaluateIn : (e : Expr) → e.Everywhere Sure → Fails e.Misapplies (e.evaluateIn [])
  | .number .., _ | .variable _, _ | .constant .., _ | .function _, _ => .ok _
  | .pos a, h | .truth a, h => .part List.mem_cons_self (fails_evaluateIn a (h.part List.mem_cons_self))
  | .neg a, h | .absolute a, h | .setInterval _ a, h =>
    .bind (.part List.mem_cons_self (fails_evaluateIn a (h.part List.mem_cons_self))) fun _ _ => .ok _
  | .binary _ a b, h | .relation _ a b, h | .interval _ a b _, h | .limit _ a b, h => by
    have ha : (([] : List String), a) ∈ [([], a), ([], b)] := by simp
    have hb : (([] : List String), b) ∈ [([], a), ([], b)] := by simp
    refine .bind (.part ha (fails_evaluateIn a (h.part ha))) fun _ _ => ?_
    exact .bind (.part hb (fails_evaluateIn b (h.part hb))) fun _ _ => .ok _
  | .factorial a ceiling, h => by
    refine .bind (.part List.mem_cons_self (fails_evaluateIn a (h.part List.mem_cons_self))) fun v hv => ?_
    rw [h.node v hv]
    exact .ok _
  | .power a b ceiling, h => by
    have ha : (([] : List String), a) ∈ [([], a), ([], b)] := by simp
    have hb : (([] : List String), b) ∈ [([], a), ([], b)] := by simp
    refine .bind (.part ha (fails_evaluateIn a (h.part ha))) fun _ _ => ?_
    refine .bind (.part hb (fails_evaluateIn b (h.part hb))) fun v hv => ?_
    rw [h.node v hv]
    exact .ok _
  | .compose f a, h => by
    obtain ⟨g, rfl⟩ := h.node
    have ha : (([] : List String), a) ∈ [([], Expr.function g), ([], a)] := by simp
    refine .bind (.ok (Value.function g)) fun _ hg => ?_
    cases hg
    refine .bind (.part ha (fails_evaluateIn a (h.part ha))) fun v hv e he => ?_
    -- a function is composed, and every other value is an argument
    have hcall : (∃ g', v = .function g') ∨ (∀ g', v ≠ .function g') ∧ applyFunction g v = callFunction g [v] := by
      cases v with
      | function g' => exact .inl ⟨g', rfl⟩
      | _ => exact .inr ⟨fun _ hv => (nomatch hv), rfl⟩
    rcases hcall with ⟨g', rfl⟩ | ⟨hne, hcall⟩
    · cases he
    · rw [hcall, callFunction] at he
      cases hm : g.call [v] with
      | ok =>
        rw [hm] at he
        cases he
      | error m =>
        rw [hm] at he
        cases he
        exact ⟨m, rfl, g, a, v, .self, hv, hne, hm⟩
  | .definition .., h => h.node.elim
  | .call f args, h => by
    refine .bind ((fails_evaluateList args fun a ha => h.part (List.mem_map_of_mem ha)).mono ?_) fun vs hvs => ?_
    · rintro m ⟨a, ha, hm⟩
      exact hm.part (List.mem_map_of_mem ha)
    · obtain ⟨hf, ha⟩ := h.node
      rw [← length_of_evaluateList hvs] at ha
      obtain ⟨v, hv⟩ := Callable.exists_call hf ha
      rw [callFunction, hv]
      exact .ok v
  | .big _ _ a b c, h => by
    have ha : (([] : List String), a) ∈ [([], a), ([], b), ([], c)] := by simp
    have hb : (([] : List String), b) ∈ [([], a), ([], b), ([], c)] := by simp
    have hc : (([] : List String), c) ∈ [([], a), ([], b), ([], c)] := by simp
    refine .bind (.part ha (fails_evaluateIn a (h.part ha))) fun _ _ => ?_
    refine .bind (.part hb (fails_evaluateIn b (h.part hb))) fun _ _ => ?_
    exact .bind (.part hc (fails_evaluateIn c (h.part hc))) fun _ _ => .ok _

/-- The same of arguments. -/
theorem fails_evaluateList : (es : List Expr) → (∀ e ∈ es, e.Everywhere Sure) →
    Fails (fun m => ∃ e ∈ es, e.Misapplies m) (evaluateList [] es)
  | [], _ => .ok _
  | e :: es, h => by
    have he := fails_evaluateIn e (h e List.mem_cons_self)
    refine .bind (he.mono fun m hm => ⟨e, List.mem_cons_self, hm⟩) fun _ _ => ?_
    refine .bind ((fails_evaluateList es fun a ha => h a (List.mem_cons_of_mem _ ha)).mono ?_) fun _ _ => .ok _
    rintro m ⟨a, ha, hm⟩
    exact ⟨a, List.mem_cons_of_mem _ ha, hm⟩

end

end Expr

namespace Setting

variable {s : Setting}

/-! ## What the parser makes sure of -/

/-- No function of the setting is a composition. -/
def IsSimple (s : Setting) : Prop := ∀ f ∈ s.catalog.functions, f.IsSimple

/-- The tree of an equation is sure everywhere. -/
theorem parse_sure (hs : s.IsSimple) {text : String} {e : Expr} (h : (s.parse .equation text).result = .ok e) :
    e.Everywhere Expr.Sure := by
  refine parse_equation_everywhere (fun a ha => ?_) h
  cases a with
  | power | factorial => exact ha.2
  | compose | definition => exact ha
  | call f args => exact ⟨hs f ha.1, ha.2⟩
  | _ => trivial

/-! ## Settings that are reached -/

/-- The settings that come from the first one by adding to it. -/
inductive Reached : Setting → Prop where
  | new : Reached {}
  | withLimits {s : Setting} (h : Reached s) (limits : Limits) : Reached (s.withLimits limits)
  | withConstant {s : Setting} (h : Reached s) (name : String) (value : Float) : Reached (s.withConstant name value)
  | withSymbol {s : Setting} (h : Reached s) (name : String) : Reached (s.withSymbol name)
  | define {s s' : Setting} {text : String} {f : Function} (h : Reached s) (hf : s.define text = .ok (f, s')) :
      Reached s'

theorem mem_upsert {α : Type} {key : α → String} {entry a : α} {es : List α} (h : a ∈ Catalog.upsert key entry es) :
    a = entry ∨ a ∈ es := by
  induction es with
  | nil => exact .inl (List.mem_singleton.mp h)
  | cons e es ih =>
    rw [Catalog.upsert] at h
    split at h
    · exact (List.mem_cons.mp h).imp_right (List.mem_cons_of_mem _)
    · rcases List.mem_cons.mp h with rfl | h
      · exact .inr List.mem_cons_self
      · exact (ih h).imp_right (List.mem_cons_of_mem _)

/-- The rules of definitions make definitions. -/
theorem Makes.exists_definition {p : Phrase} {r : Rule} {payload : Payload}
    (hr : r = .definition ∨ r = .definitionWithoutParameters) (h : s.Makes p r payload) :
    ∃ name params body, payload = .expr (.definition name params body) := by
  cases h with
  | definition | definitionWithoutParameters => exact ⟨_, _, _, rfl⟩
  | hand h | relation h | interval h | operation h | big h =>
    rcases hr with rfl | rfl <;>
      simp [Rule.handing, Rule.relations, Rule.intervals, Rule.operations, Rule.bigOperators] at h
  | pos h | neg h | number h | identifier h | subscript h | subscriptCall h =>
    rcases hr with rfl | rfl <;> rcases h with h | h <;> cases h
  | _ => rcases hr with hr | hr <;> cases hr

/-- What is read as a definition is one. -/
theorem parse_definition {text : String} {e : Expr} (h : (s.parse .definition text).result = .ok e) :
    ∃ name params body, e = .definition name params body := by
  obtain ⟨-, token, a, hrun, ha, rfl⟩ := parse_eq_ok.mp h
  obtain ⟨-, -, -, -, -, -, -, hsymbol⟩ := exists_moves hrun
  have htable : ∀ f ∈ Rule.table, f.lhs = .definition →
      f.rule = .definition ∨ f.rule = .definitionWithoutParameters := by decide
  have hall := run_preserves (s := s)
    (P := fun t => t.symbol = .definition → t.payload.All fun e => ∃ name params body, e = .definition name params body)
    (fun _ hf _ _ hm hd => ?_) (fun _ _ => trivial) (fun t ht _ => ?_) hrun
  · have he := hall hsymbol
    rw [ha] at he
    obtain ⟨name, params, body, rfl⟩ := he
    exact ⟨name, params, body, rfl⟩
  · obtain ⟨name, params, body, rfl⟩ := hm.exists_definition (htable _ hf hd)
    exact ⟨name, params, body, rfl⟩
  · rw [Lexer.payload_scan ht]
    trivial

/-- A text defines the function that its tree has for a value. -/
theorem define_eq_ok {text : String} {f : Function} {s' : Setting} :
    s.define text = .ok (f, s') ↔ ∃ root, (s.parse .definition text).result = .ok root ∧
      root.evaluate = .ok (.function f) ∧ s' = { s with catalog := s.catalog.insertFunction f } := by
  unfold define
  constructor
  · intro h
    obtain ⟨root, hroot, h⟩ := Except.bind_eq_ok_iff.mp h
    obtain ⟨v, hv, h⟩ := Except.bind_eq_ok_iff.mp h
    have hparse : (s.parse .definition text).result = .ok root := by
      cases hr : (s.parse .definition text).result with
      | error e =>
        rw [hr] at hroot
        cases hroot
      | ok e =>
        rw [hr] at hroot
        exact hroot
    split at h
    · cases h
      exact ⟨root, hparse, hv, rfl⟩
    · cases h
  · rintro ⟨root, hparse, hv, rfl⟩
    refine Except.bind_eq_ok_iff.mpr ⟨root, by rw [hparse]; rfl, Except.bind_eq_ok_iff.mpr ⟨_, hv, rfl⟩⟩

/-- What a text defines is a definition. -/
theorem exists_defined {text : String} {f : Function} {s' : Setting} (h : s.define text = .ok (f, s')) :
    (∃ name params body, f = .defined name params body) ∧
      s' = { s with catalog := s.catalog.insertFunction f } := by
  obtain ⟨root, hparse, hv, hs'⟩ := define_eq_ok.mp h
  obtain ⟨name, params, body, rfl⟩ := parse_definition hparse
  rw [Expr.evaluate, Expr.evaluateIn] at hv
  obtain ⟨names, -, hv⟩ := Except.bind_eq_ok_iff.mp hv
  obtain ⟨value, -, hv⟩ := Except.bind_eq_ok_iff.mp hv
  cases hv
  exact ⟨⟨_, _, _, rfl⟩, hs'⟩

/-- A setting that is reached has builtins and definitions for functions. -/
theorem Reached.isSimple (h : s.Reached) : s.IsSimple := by
  induction h with
  | new =>
    intro f hf outer inner he
    obtain ⟨b, -, rfl⟩ := List.mem_map.mp hf
    cases he
  | withLimits _ _ ih | withConstant _ _ _ ih | withSymbol _ _ ih => exact ih
  | define _ hf ih =>
    obtain ⟨⟨name, params, body, rfl⟩, rfl⟩ := exists_defined hf
    intro f hf outer inner he
    rcases mem_upsert hf with rfl | hf
    · cases he
    · exact ih f hf outer inner he

/-- A tree that was parsed has a value, unless a function in front of `@` in it, which does not take one argument, is
applied to the value of its one operand. Then this is the error. -/
theorem parse_progress (hs : s.Reached) {text : String} {e : Expr} (h : (s.parse .equation text).result = .ok e) :
    (∃ v, e.evaluate = .ok v) ∨
      ∃ f a v m, Expr.Meets [] e [] (.compose (.function f) a) ∧ a.evaluate = .ok v ∧ (∀ g, v ≠ .function g) ∧
        f.call [v] = .error m ∧ e.evaluate = .error (.arityMismatch m) := by
  cases hv : e.evaluate with
  | ok v => exact .inl ⟨v, rfl⟩
  | error error =>
    obtain ⟨m, rfl, f, a, v, hm, ha, hne, hcall⟩ := Expr.fails_evaluateIn e (parse_sure hs.isSimple h) error hv
    exact .inr ⟨f, a, v, m, hm, ha, hne, hcall, rfl⟩

/-- A definition of two parameters in front of one operand. -/
theorem parse_misapplied :
    ∃ f s e m, Setting.define {} "f(x,y)=x" = .ok (f, s) ∧ (s.parse .equation "f@1").result = .ok e ∧
      e.evaluate = .error (.arityMismatch m) ∧ m = ⟨"f", "2", 1⟩ ∧
      ∃ g a v, Expr.Meets [] e [] (.compose (.function g) a) ∧ a.evaluate = .ok v ∧ g.call [v] = .error m := by
  have h : (do
      let (_, s) ← (Setting.define {} "f(x,y)=x").toOption
      match (← (s.parse .equation "f@1").result.toOption).evaluate with
      | .error (.arityMismatch m) => some m
      | _ => none) = some (⟨"f", "2", 1⟩ : ArityMismatch) := by decide +kernel
  obtain ⟨⟨f, s⟩, hdefine, h⟩ := Option.bind_eq_some_iff.mp h
  obtain ⟨e, he, h⟩ := Option.bind_eq_some_iff.mp h
  have hdefine : Setting.define {} "f(x,y)=x" = .ok (f, s) := by
    cases hd : Setting.define {} "f(x,y)=x" <;> rw [hd] at hdefine <;> cases hdefine
    rfl
  have he : (s.parse .equation "f@1").result = .ok e := by
    cases hr : (s.parse .equation "f@1").result <;> rw [hr] at he <;> cases he
    rfl
  obtain ⟨v, hv⟩ | ⟨g, a, v, m, hm, ha, -, hcall, hv⟩ := parse_progress (.define .new hdefine) he
  · rw [hv] at h
    cases h
  · rw [hv] at h
    exact ⟨f, s, e, m, hdefine, he, hv, Option.some.inj h, g, a, v, hm, ha, hcall⟩

end Setting

end Formula
