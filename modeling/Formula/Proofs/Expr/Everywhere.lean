import Formula.Proofs.Expr.Invariant

/-!
# Trees, part by part

The parts of a tree are the subtrees that its evaluation goes on with, and `Meets` are all that it comes to, each with
the names that are parameters there. A property that holds `Everywhere` in a tree holds of the tree and of everything
that an evaluation comes to in it, so that what is shown node by node is then shown for trees by recursion on them.

`Built` says what the parser makes sure of at a node. It holds everywhere in a tree that was parsed, definitions aside,
and so does every property of nodes that follows from it (`Setting.parse_everywhere`).
-/

namespace Formula

theorem Except.bind_eq_ok_iff {α β : Type} {x : Except Error α} {f : α → Except Error β} {b : β} :
    x >>= f = .ok b ↔ ∃ a, x = .ok a ∧ f a = .ok b :=
  ⟨LR.Grammar.bind_eq_ok, fun ⟨a, hx, hf⟩ => by rw [hx]; exact hf⟩

namespace Expr

/-! ## The subtrees that are evaluated -/

/-- The names of parameters are those of variables and constants. -/
theorem parameterNames_eq_filterMap {function : String} {params : List Expr} {names : List String}
    (h : parameterNames function params = .ok names) : names = params.filterMap name? := by
  induction params generalizing names with
  | nil =>
    cases h
    rfl
  | cons p params ih =>
    rw [parameterNames] at h
    cases hp : p.name? with
    | none =>
      rw [hp] at h
      cases h
    | some name =>
      rw [hp] at h
      obtain ⟨names, hnames, h⟩ := Except.bind_eq_ok_iff.mp h
      cases h
      rw [List.filterMap_cons, hp, ih hnames]

/-- The direct subtrees that are evaluated for a tree, with the names that are parameters there. -/
def parts (params : List String) : Expr → List (List String × Expr)
  | .number .. | .variable _ | .constant .. | .function _ => []
  | .pos a | .neg a | .factorial a _ | .absolute a | .setInterval _ a | .truth a => [(params, a)]
  | .binary _ a b | .power a b _ | .compose a b | .relation _ a b | .interval _ a b _ | .limit _ a b =>
    [(params, a), (params, b)]
  | .definition _ ps body => [(ps.filterMap name? ++ params, body)]
  | .call _ args => args.map (params, ·)
  | .big _ _ a b body => [(params, a), (params, b), (params, body)]

/-- The evaluation of a tree inside definitions with the parameters comes to a subtree with parameters of its own. -/
inductive Meets (params : List String) (e : Expr) : List String → Expr → Prop where
  | self : Meets params e params e
  | part {ps qs : List String} {a b : Expr} (h : Meets params e ps a) (hb : (qs, b) ∈ a.parts ps) :
      Meets params e qs b

/-- What is met is the tree itself, or is met in one of its parts. -/
theorem meets_iff {params ps : List String} {e a : Expr} :
    Meets params e ps a ↔ ps = params ∧ a = e ∨ ∃ x ∈ e.parts params, Meets x.1 x.2 ps a := by
  constructor
  · intro h
    induction h with
    | self => exact .inl ⟨rfl, rfl⟩
    | part _ hb ih =>
      obtain ⟨rfl, rfl⟩ | ⟨x, hx, hm⟩ := ih
      · exact .inr ⟨_, hb, .self⟩
      · exact .inr ⟨x, hx, .part hm hb⟩
  · rintro (⟨rfl, rfl⟩ | ⟨x, hx, hm⟩)
    · exact .self
    · induction hm with
      | self => exact .part .self hx
      | part _ hb ih => exact .part ih hb

/-- Which subtrees are evaluated does not depend on the parameters. -/
theorem exists_mem_parts {params ps qs : List String} {e a : Expr} (h : (ps, a) ∈ e.parts params) :
    ∃ rs, (rs, a) ∈ e.parts qs := by
  have hmap : (e.parts params).map (·.2) = (e.parts qs).map (·.2) := by
    cases e <;> simp [parts]
  have ha : a ∈ (e.parts qs).map (·.2) := hmap ▸ List.mem_map.mpr ⟨_, h, rfl⟩
  obtain ⟨⟨rs, _⟩, hm, rfl⟩ := List.mem_map.mp ha
  exact ⟨rs, hm⟩

/-! ## Everywhere in a tree -/

/-- The property holds of every subtree that an evaluation can come to. -/
inductive Everywhere (P : Expr → Prop) : Expr → Prop where
  | intro {e : Expr} (he : P e) (h : ∀ x ∈ e.parts [], Everywhere P x.2) : Everywhere P e

namespace Everywhere

variable {P : Expr → Prop} {e : Expr}

theorem node (h : e.Everywhere P) : P e := by
  cases h
  assumption

theorem part (h : e.Everywhere P) {ps : List String} {a : Expr} (ha : (ps, a) ∈ e.parts []) : a.Everywhere P := by
  cases h with
  | intro _ h => exact h _ ha

theorem first {ps : List String} {a : Expr} {rest : List (List String × Expr)} (h : e.Everywhere P)
    (he : e.parts [] = (ps, a) :: rest) : a.Everywhere P := h.part (he ▸ List.mem_cons_self)

theorem second {x : List String × Expr} {ps : List String} {a : Expr} {rest : List (List String × Expr)}
    (h : e.Everywhere P) (he : e.parts [] = x :: (ps, a) :: rest) : a.Everywhere P :=
  h.part (he ▸ List.mem_cons_of_mem _ List.mem_cons_self)

theorem third {x y : List String × Expr} {ps : List String} {a : Expr} {rest : List (List String × Expr)}
    (h : e.Everywhere P) (he : e.parts [] = x :: y :: (ps, a) :: rest) : a.Everywhere P :=
  h.part (he ▸ List.mem_cons_of_mem _ (List.mem_cons_of_mem _ List.mem_cons_self))

theorem classify (h : e.Everywhere P) (htruth : ∀ a, P (.truth a)) : e.classify.Everywhere P := by
  unfold Expr.classify
  split
  · split
    · exact .intro (htruth _) (List.forall_mem_singleton.mpr h)
    · exact h
  · exact h

end Everywhere

/-! ## Trees that the parser builds -/

/-- What the parser makes sure of at a node that is no definition. -/
def Built (s : Setting) : Expr → Prop
  | .power _ exponent ceiling =>
    ceiling = s.limits.exponent ∧ ∀ v, exponent.evaluate = .ok v → Limits.checkExponent ceiling v = .ok ()
  | .factorial operand ceiling =>
    ceiling = s.limits.factorial ∧ ∀ v, operand.evaluate = .ok v → Limits.checkFactorial ceiling v = .ok ()
  | .compose f _ => ∃ g, f = .function g
  | .call f args => f ∈ s.catalog.functions ∧ f.accepts args.length = true
  | .definition .. => False
  | _ => True

end Expr

namespace Setting

variable {s : Setting} {P : Expr → Prop}

section

variable (hP : ∀ e : Expr, e.Built s → P e)

include hP

theorem everywhere_resolve (name : String) (subscript : Option String) : (s.resolve name subscript).Everywhere P :=
  resolve_induction (fun _ => .intro (hP _ trivial) (by simp [Expr.parts]))
    (fun _ _ _ => .intro (hP _ trivial) (by simp [Expr.parts]))
    (fun _ _ ha hb => .intro (hP _ trivial) (by simp [Expr.parts, ha, hb])) name subscript

theorem Literal.everywhere {t : Token} {e : Expr} (h : s.Literal t e) : e.Everywhere P := by
  obtain ⟨_, _, _, rfl⟩ := h
  exact .intro (hP _ trivial) (by simp [Expr.parts])

theorem Calls.everywhere {name : String} {subscript : Option Token} {args : List Expr} {e : Expr}
    (h : s.Calls name subscript args e) (hargs : ∀ a ∈ args, a.Everywhere P) : e.Everywhere P := by
  cases h with
  | @function f lead hf hl ha =>
    refine .intro (hP _ ⟨List.mem_of_find?_eq_some hf, ha⟩) (List.forall_mem_map.mpr fun a ha => ?_)
    rcases List.mem_append.mp ha with ha | ha
    · cases hl with
      | none => cases ha
      | number _ he =>
        obtain rfl := List.mem_singleton.mp ha
        exact he.everywhere hP
      | name _ =>
        obtain rfl := List.mem_singleton.mp ha
        exact everywhere_resolve hP _ _
    · exact hargs a ha
  | product _ ha =>
    subst ha
    exact .intro (hP _ trivial) (by simpa [Expr.parts] using ⟨everywhere_resolve hP _ _, hargs _ List.mem_cons_self⟩)

/-- What a rule makes has a property everywhere if its phrase has, and if the property holds of every node that is
built. -/
theorem Makes.everywhere {p : Phrase} {r : Rule} {payload : Payload}
    (hdefinition : r = .definition ∨ r = .definitionWithoutParameters → ∀ name ps body, P (.definition name ps body))
    (hp : p.All (Expr.Everywhere P)) (h : s.Makes p r payload) : payload.All (Expr.Everywhere P) := by
  cases h with
  | hand _ he => exact hp.tree he
  | relation _ ha hb | operation _ ha hb | interval _ ha hb | limit _ ha hb =>
    exact .intro (hP _ trivial) (by simp [Expr.parts, hp.tree ha, hp.tree hb])
  | setInterval _ _ he | pos _ he | neg _ he | bars he =>
    exact .intro (hP _ trivial) (by simp [Expr.parts, hp.tree he])
  | definition _ _ hb => exact .intro (hdefinition (.inl rfl) _ _ _) (by simp [Expr.parts, hp.tree hb])
  | definitionWithoutParameters _ hb => exact .intro (hdefinition (.inr rfl) _ _ _) (by simp [Expr.parts, hp.tree hb])
  | firstArgument he => exact List.forall_mem_singleton.mpr (hp.tree he)
  | nextArgument hs he =>
    exact List.forall_mem_append.mpr ⟨hp.trees hs, List.forall_mem_singleton.mpr (hp.tree he)⟩
  | power ha hb hc => exact .intro (hP _ ⟨rfl, hc⟩) (by simp [Expr.parts, hp.tree ha, hp.tree hb])
  | factorial ha hc => exact .intro (hP _ ⟨rfl, hc⟩) (by simp [Expr.parts, hp.tree ha])
  | number _ _ he => exact he.everywhere hP
  | function => exact .intro (hP _ trivial) (by simp [Expr.parts])
  | identifier | subscript => exact everywhere_resolve hP _ _
  | call _ ha he | subscriptCall _ _ _ ha he => exact he.everywhere hP (hp.trees ha)
  | callWithoutArguments _ he => exact he.everywhere hP (by simp)
  | composition _ _ he =>
    have hf : ∀ f : Function, (Expr.function f).Everywhere P := fun f => .intro (hP _ trivial) (by simp [Expr.parts])
    exact .intro (hP _ ⟨_, rfl⟩) (by simp [Expr.parts, hf, hp.tree he])
  | big _ _ ha hb hc => exact .intro (hP _ trivial) (by simp [Expr.parts, hp.tree ha, hp.tree hb, hp.tree hc])

/-- What holds of every node that is built and of definitions holds everywhere in a tree that was parsed. -/
theorem parse_everywhere (hdefinition : ∀ name ps body, P (.definition name ps body)) {goal : Goal} {text : String}
    {e : Expr} (h : (s.parse goal text).result = .ok e) : e.Everywhere P := by
  obtain ⟨a, rfl, ha⟩ := parse_preserves (Makes.everywhere hP fun _ => hdefinition) h
  exact ha.classify fun _ => hP _ trivial

/-- In an equation stand no definitions. -/
theorem parse_equation_everywhere {text : String} {e : Expr} (h : (s.parse .equation text).result = .ok e) :
    e.Everywhere P := by
  obtain ⟨-, token, a, hrun, ha, rfl⟩ := parse_eq_ok.mp h
  obtain ⟨-, -, -, -, -, -, -, hsymbol⟩ := exists_moves hrun
  have htable : ∀ f ∈ Rule.table, f.lhs ≠ .definition → f.lhs ≠ .definitionStart →
      (f.rule ≠ .definition ∧ f.rule ≠ .definitionWithoutParameters) ∧
        ∀ x ∈ f.rhs, x ≠ .definition ∧ x ≠ .definitionStart := by decide
  have hall := run_preserves (s := s)
    (P := fun t => t.symbol ≠ .definition → t.symbol ≠ .definitionStart → t.payload.All (Expr.Everywhere P))
    (fun _ hf hsymbols hall hm hd hstart => ?_) (fun _ _ _ => trivial) (fun t ht _ _ => ?_) hrun
  · have he := hall (by rw [hsymbol]; decide) (by rw [hsymbol]; decide)
    rw [ha] at he
    exact he.classify fun _ => hP _ trivial
  · obtain ⟨hr, hrhs⟩ := htable _ hf hd hstart
    refine Makes.everywhere hP (fun h => absurd h (not_or.mpr hr)) (fun t ht => ?_) hm
    obtain ⟨hd, hstart⟩ := hrhs t.symbol (hsymbols ▸ List.mem_map_of_mem ht)
    exact hall t ht hd hstart
  · rw [Lexer.payload_scan ht]
    trivial

end

end Setting

end Formula
