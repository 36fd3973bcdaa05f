import Formula.Proofs.Expr.Everywhere

/-!
# Constants turned back into variables

`Expr.unbind` turns the constants of one name back into variables. The tree is written as before (`render_unbind`), and
where the name is a parameter it has the value it had (`evaluateIn_unbind`): there the constant is shadowed.
-/

namespace Formula

namespace Expr

mutual

/-- The tree with the constant of a name turned back into a variable. -/
def unbind (p : String) : Expr → Expr
  | .number literal value => .number literal value
  | .variable name => .variable name
  | .constant name value => if name = p then .variable name else .constant name value
  | .function f => .function f
  | .pos a => .pos (a.unbind p)
  | .neg a => .neg (a.unbind p)
  | .factorial a ceiling => .factorial (a.unbind p) ceiling
  | .absolute a => .absolute (a.unbind p)
  | .binary op a b => .binary op (a.unbind p) (b.unbind p)
  | .power a b ceiling => .power (a.unbind p) (b.unbind p) ceiling
  | .compose f a => .compose (f.unbind p) (a.unbind p)
  | .relation op a b => .relation op (a.unbind p) (b.unbind p)
  | .interval left a b right => .interval left (a.unbind p) (b.unbind p) right
  | .setInterval set a => .setInterval set (a.unbind p)
  | .definition name params body => .definition name (unbindList p params) (body.unbind p)
  | .call f args => .call f (unbindList p args)
  | .limit target a body => .limit target (a.unbind p) (body.unbind p)
  | .big op var a b body => .big op var (a.unbind p) (b.unbind p) (body.unbind p)
  | .truth a => .truth (a.unbind p)

def unbindList (p : String) : List Expr → List Expr
  | [] => []
  | e :: es => e.unbind p :: unbindList p es

end

variable {p : String}

theorem unbindList_eq (p : String) (es : List Expr) : unbindList p es = es.map (unbind p) := by
  induction es with
  | nil => rfl
  | cons e es ih => rw [unbindList, ih, List.map_cons]

theorem isAtom_unbind (p : String) (e : Expr) : (e.unbind p).isAtom = e.isAtom := by
  cases e with
  | constant name value =>
    rw [unbind]
    split <;> rfl
  | _ => rfl

theorem name?_unbind (p : String) (e : Expr) : (e.unbind p).name? = e.name? := by
  cases e with
  | constant name value =>
    rw [unbind]
    split <;> rfl
  | _ => rfl

mutual

/-- A constant and a variable are written alike. -/
theorem render_unbind (p : String) : (e : Expr) → (e.unbind p).render = e.render
  | .number .. | .variable _ | .function _ => rfl
  | .constant name value => by
    rw [unbind]
    split <;> rfl
  | .pos a | .neg a | .factorial a _ => by
    simp only [unbind, render, isAtom_unbind, render_unbind p a]
  | .absolute a | .setInterval _ a | .truth a => by
    simp only [unbind, render, render_unbind p a]
  | .binary _ a b | .power a b _ | .compose a b | .relation _ a b | .interval _ a b _ | .limit _ a b => by
    simp only [unbind, render, isAtom_unbind, render_unbind p a, render_unbind p b]
  | .definition _ ps body => by
    simp only [unbind, render, renderList_unbind p ps, render_unbind p body]
  | .call _ args => by
    simp only [unbind, render, renderList_unbind p args]
  | .big _ _ a b body => by
    simp only [unbind, render, isAtom_unbind, render_unbind p a, render_unbind p b, render_unbind p body]

theorem renderList_unbind (p : String) : (es : List Expr) → renderList (unbindList p es) = renderList es
  | [] => rfl
  | [e] => render_unbind p e
  | e :: f :: es => by
    show (e.unbind p).render ++ ", " ++ renderList (unbindList p (f :: es)) = e.render ++ ", " ++ renderList (f :: es)
    rw [render_unbind p e, renderList_unbind p (f :: es)]

end

/-- The names of parameters do not depend on what is a constant. -/
theorem parameterNames_unbind (p function : String) (ps : List Expr) :
    parameterNames function (unbindList p ps) = parameterNames function ps := by
  induction ps with
  | nil => rfl
  | cons e ps ih => rw [unbindList, parameterNames, parameterNames, name?_unbind, render_unbind, ih]

mutual

/-- Where the name is a parameter, the constant of that name has no value of its own. -/
theorem evaluateIn_unbind {params : List String} (h : p ∈ params) :
    (e : Expr) → (e.unbind p).evaluateIn params = e.evaluateIn params
  | .number .. | .variable _ | .function _ => rfl
  | .constant name value => by
    rw [unbind]
    split
    · rename_i hname
      rw [evaluateIn, evaluateIn, if_pos (List.contains_iff_mem.mpr (hname ▸ h))]
    · rfl
  | .pos a | .truth a => by
    simp only [unbind, evaluateIn, evaluateIn_unbind h a]
  | .neg a | .factorial a _ | .absolute a | .setInterval _ a => by
    simp only [unbind, evaluateIn, evaluateIn_unbind h a]
  | .binary _ a b | .power a b _ | .relation _ a b | .interval _ a b _ | .limit _ a b => by
    simp only [unbind, evaluateIn, evaluateIn_unbind h a, evaluateIn_unbind h b]
  | .compose f a => by
    simp only [unbind, evaluateIn, evaluateIn_unbind h f, evaluateIn_unbind h a, render_unbind]
  | .definition name ps body => by
    have hbody : ∀ names : List String,
        (body.unbind p).evaluateIn (names ++ params) = body.evaluateIn (names ++ params) :=
      fun names => evaluateIn_unbind (List.mem_append_right names h) body
    simp only [unbind, evaluateIn, parameterNames_unbind, hbody]
  | .call _ args => by
    simp only [unbind, evaluateIn, evaluateList_unbind h args]
  | .big _ _ a b body => by
    simp only [unbind, evaluateIn, evaluateIn_unbind h a, evaluateIn_unbind h b, evaluateIn_unbind h body]

theorem evaluateList_unbind {params : List String} (h : p ∈ params) :
    (es : List Expr) → evaluateList params (unbindList p es) = evaluateList params es
  | [] => rfl
  | e :: es => by
    simp only [unbindList, evaluateList, evaluateIn_unbind h e, evaluateList_unbind h es]

end

/-! ## Trees of definitions -/

theorem eq_of_classify_definition {e : Expr} {name : String} {ps : List Expr} {body : Expr}
    (h : e.classify = .definition name ps body) : e = .definition name ps body := by
  unfold classify at h
  split at h
  · split at h <;> cases h
  · exact h

/-- What is a definition but for a constant is one. -/
theorem exists_definition_of_unbind {e : Expr} {name : String} {ps : List Expr} {body : Expr}
    (h : e.unbind p = .definition name ps body) :
    ∃ ps' body', e = .definition name ps' body' ∧ unbindList p ps' = ps ∧ body'.unbind p = body := by
  cases e with
  | definition name' ps' body' =>
    obtain ⟨rfl, rfl, rfl⟩ := Expr.definition.inj h
    exact ⟨ps', body', rfl, rfl, rfl⟩
  | constant name' value =>
    rw [unbind] at h
    split at h <;> cases h
  | _ => cases h

/-- Definitions that are the same but for a constant have one value, if it has a parameter of the name. -/
theorem evaluate_of_unbind {e e' : Expr} {defined name : String} {ps : List Expr} {a : Expr}
    (he : e = .definition defined ps a) (hsame : e'.unbind p = e.unbind p) {params : List Value} {body : Value}
    (hv : e.evaluate = .ok (.function (.defined name params body))) (hparam : .symbol p ∈ params) :
    e'.evaluate = .ok (.function (.defined name params body)) := by
  subst he
  obtain ⟨ps', a', rfl, hps, ha⟩ := exists_definition_of_unbind hsame
  rw [evaluate, evaluateIn] at hv ⊢
  obtain ⟨names, hnames, hv⟩ := Except.bind_eq_ok_iff.mp hv
  obtain ⟨v, hbody, hv⟩ := Except.bind_eq_ok_iff.mp hv
  cases hv
  obtain ⟨_, hp, hq⟩ := List.mem_map.mp hparam
  cases hq
  have hmem : p ∈ names ++ [] := List.mem_append_left _ hp
  rw [← parameterNames_unbind p, hps, parameterNames_unbind, hnames]
  refine Except.bind_eq_ok_iff.mpr ⟨names, rfl, Except.bind_eq_ok_iff.mpr ⟨body, ?_, rfl⟩⟩
  rw [← evaluateIn_unbind hmem, ha, evaluateIn_unbind hmem, hbody]

end Expr

end Formula
