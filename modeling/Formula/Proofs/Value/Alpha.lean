import Formula.Proofs.Value.Symbols

/-!
# Values up to the names of bound variables

`Alpha` relates values that differ in the names of bound variables alone. It carries the binders around the two values
as a stack of pairs; two symbols are `Paired` if the same binder binds both, or if none binds either and they are equal.

The relations `=` and `≠` look at their sides as trees, names of bound variables included, so that renaming can turn a
relation that is decided into one that is not. Their sides are therefore related with the names kept, which is what the
first argument of `Alpha` says.

Everything that a value is asked for is the same on both sides, and every operation takes related operands to related
results. Only a limit looks at its body for this: it is dropped where its variable does not occur.
-/

namespace Formula

/-- Whether the relation is decided on equal trees. -/
def Relation.comparesTrees (op : Relation) : Bool :=
  op == .eq || op == .ne

namespace Value

/-- The variables of the binders around two values, innermost first. -/
abbrev Binders := List (String × String)

/-- The same binder binds both symbols, or none binds either and they are equal. -/
def Paired : Binders → String → String → Prop
  | [], s, t => s = t
  | (x, y) :: env, s, t => s = x ∧ t = y ∨ s ≠ x ∧ t ≠ y ∧ Paired env s t

/-- The values differ in the names of bound variables alone; with names kept, not even in these. -/
inductive Alpha : Bool → Binders → Value → Value → Prop where
  | number {kept : Bool} {env : Binders} (n : Number) : Alpha kept env (.number n) (.number n)
  | bool {kept : Bool} {env : Binders} (b : Bool) : Alpha kept env (.bool b) (.bool b)
  | constant {kept : Bool} {env : Binders} (c : Constant) : Alpha kept env (.constant c) (.constant c)
  | set {kept : Bool} {env : Binders} (s : NumberSet) : Alpha kept env (.set s) (.set s)
  | function {kept : Bool} {env : Binders} (f : Function) : Alpha kept env (.function f) (.function f)
  | symbol {kept : Bool} {env : Binders} {s t : String} (h : Paired env s t) : Alpha kept env (.symbol s) (.symbol t)
  | sum {kept : Bool} {env : Binders} {vs ws : List Value} (hlen : vs.length = ws.length)
      (h : ∀ {v w}, (v, w) ∈ vs.zip ws → Alpha kept env v w) : Alpha kept env (.sum vs) (.sum ws)
  | product {kept : Bool} {env : Binders} {vs ws : List Value} (hlen : vs.length = ws.length)
      (h : ∀ {v w}, (v, w) ∈ vs.zip ws → Alpha kept env v w) : Alpha kept env (.product vs) (.product ws)
  | application {kept : Bool} {env : Binders} (name : String) {vs ws : List Value} (hlen : vs.length = ws.length)
      (h : ∀ {v w}, (v, w) ∈ vs.zip ws → Alpha kept env v w) :
      Alpha kept env (.application name vs) (.application name ws)
  | power {kept : Bool} {env : Binders} {a a' b b' : Value} (ha : Alpha kept env a a') (hb : Alpha kept env b b') :
      Alpha kept env (.power a b) (.power a' b')
  | remainder {kept : Bool} {env : Binders} {a a' b b' : Value} (ha : Alpha kept env a a') (hb : Alpha kept env b b') :
      Alpha kept env (.remainder a b) (.remainder a' b')
  | factorial {kept : Bool} {env : Binders} {a a' : Value} (ha : Alpha kept env a a') :
      Alpha kept env (.factorial a) (.factorial a')
  | absolute {kept : Bool} {env : Binders} {a a' : Value} (ha : Alpha kept env a a') :
      Alpha kept env (.absolute a) (.absolute a')
  | relation {kept : Bool} {env : Binders} (op : Relation) {a a' b b' : Value}
      (ha : Alpha (kept || op.comparesTrees) env a a') (hb : Alpha (kept || op.comparesTrees) env b b') :
      Alpha kept env (.relation op a b) (.relation op a' b')
  | interval {kept : Bool} {env : Binders} (leftOpen rightOpen : Bool) {a a' b b' : Value}
      (ha : Alpha kept env a a') (hb : Alpha kept env b b') :
      Alpha kept env (.interval a b leftOpen rightOpen) (.interval a' b' leftOpen rightOpen)
  | intersection {kept : Bool} {env : Binders} {a a' b b' : Value} (ha : Alpha kept env a a')
      (hb : Alpha kept env b b') : Alpha kept env (.intersection a b) (.intersection a' b')
  | limit {kept : Bool} {env : Binders} {x y : String} {a a' b b' : Value} (hxy : kept = true → x = y)
      (ha : Alpha kept env a a') (hb : Alpha kept ((x, y) :: env) b b') :
      Alpha kept env (.limit x a b) (.limit y a' b')
  | bigSum {kept : Bool} {env : Binders} {x y : String} {a a' b b' c c' : Value} (hxy : kept = true → x = y)
      (ha : Alpha kept env a a') (hb : Alpha kept env b b') (hc : Alpha kept ((x, y) :: env) c c') :
      Alpha kept env (.bigSum x a b c) (.bigSum y a' b' c')
  | bigProduct {kept : Bool} {env : Binders} {x y : String} {a a' b b' c c' : Value} (hxy : kept = true → x = y)
      (ha : Alpha kept env a a') (hb : Alpha kept env b b') (hc : Alpha kept ((x, y) :: env) c c') :
      Alpha kept env (.bigProduct x a b c) (.bigProduct y a' b' c')

/-- Values that differ in the names of bound variables alone. -/
def AlphaEq (v w : Value) : Prop := Alpha false [] v w

variable {kept : Bool} {env env' : Binders} {s s' t t' x y : String} {a a' b b' c c' v w : Value} {vs ws : List Value}

/-! ## Pairs of symbols -/

namespace Paired

theorem here : Paired ((x, y) :: env) x y := .inl ⟨rfl, rfl⟩

theorem there (hs : s ≠ x) (ht : t ≠ y) (h : Paired env s t) : Paired ((x, y) :: env) s t := .inr ⟨hs, ht, h⟩

theorem ne_iff (h : Paired ((x, y) :: env) s t) : s ≠ x ↔ t ≠ y := by
  rcases h with ⟨hs, ht⟩ | ⟨hs, ht, -⟩
  · exact ⟨fun h => absurd hs h, fun h => absurd ht h⟩
  · exact ⟨fun _ => ht, fun _ => hs⟩

theorem outer (h : Paired ((x, y) :: env) s t) (hs : s ≠ x) : Paired env s t :=
  (h.resolve_left fun h => hs h.1).2.2

theorem eq_iff (h : Paired env s t) (h' : Paired env s' t') : s = s' ↔ t = t' := by
  induction env with
  | nil =>
    cases h
    cases h'
    exact Iff.rfl
  | cons p env ih =>
    obtain ⟨x, y⟩ := p
    rcases h with ⟨rfl, rfl⟩ | ⟨hs, ht, h⟩ <;> rcases h' with ⟨rfl, rfl⟩ | ⟨hs', ht', h'⟩
    · exact ⟨fun _ => rfl, fun _ => rfl⟩
    · exact ⟨fun h => absurd h.symm hs', fun h => absurd h.symm ht'⟩
    · exact ⟨fun h => absurd h hs, fun h => absurd h ht⟩
    · exact ih h h'

theorem symm (h : Paired env s t) : Paired (env.map Prod.swap) t s := by
  induction env with
  | nil => exact Eq.symm h
  | cons p env ih => exact h.imp And.symm fun ⟨hs, ht, h⟩ => ⟨ht, hs, ih h⟩

end Paired

/-! ## Rows -/

namespace Alpha

theorem sum_of (h : List.Forall₂ (Alpha kept env) vs ws) : Alpha kept env (.sum vs) (.sum ws) :=
  .sum h.length_eq (List.forall₂_zip h)

theorem product_of (h : List.Forall₂ (Alpha kept env) vs ws) : Alpha kept env (.product vs) (.product ws) :=
  .product h.length_eq (List.forall₂_zip h)

theorem application_of (name : String) (h : List.Forall₂ (Alpha kept env) vs ws) :
    Alpha kept env (.application name vs) (.application name ws) :=
  .application name h.length_eq (List.forall₂_zip h)

theorem symm (h : Alpha kept env v w) : Alpha kept (env.map Prod.swap) w v := by
  induction h with
  | number n => exact .number n
  | bool b => exact .bool b
  | constant c => exact .constant c
  | set s => exact .set s
  | function f => exact .function f
  | symbol h => exact .symbol h.symm
  | sum hlen _ ih => exact .sum_of (.flip (List.forall₂_iff_zip.mpr ⟨hlen, ih⟩))
  | product hlen _ ih => exact .product_of (.flip (List.forall₂_iff_zip.mpr ⟨hlen, ih⟩))
  | application name hlen _ ih => exact .application_of name (.flip (List.forall₂_iff_zip.mpr ⟨hlen, ih⟩))
  | power _ _ iha ihb => exact .power iha ihb
  | remainder _ _ iha ihb => exact .remainder iha ihb
  | factorial _ iha => exact .factorial iha
  | absolute _ iha => exact .absolute iha
  | relation op _ _ iha ihb => exact .relation op iha ihb
  | interval l r _ _ iha ihb => exact .interval l r iha ihb
  | intersection _ _ iha ihb => exact .intersection iha ihb
  | limit hxy _ _ iha ihb => exact .limit (fun h => (hxy h).symm) iha ihb
  | bigSum hxy _ _ _ iha ihb ihc => exact .bigSum (fun h => (hxy h).symm) iha ihb ihc
  | bigProduct hxy _ _ _ iha ihb ihc => exact .bigProduct (fun h => (hxy h).symm) iha ihb ihc

end Alpha

/-! ## Free symbols -/

/-- What is among the first names is paired with something among the second. -/
def Finds (env : Binders) (free free' : String → Bool) : Prop :=
  ∀ s, free s = true → ∃ t, Paired env s t ∧ free' t = true

namespace Finds

variable {f f' g g' : String → Bool}

theorem or (hf : Finds env f f') (hg : Finds env g g') : Finds env (fun s => f s || g s) (fun t => f' t || g' t) := by
  intro s hs
  rcases Bool.or_eq_true_iff.mp hs with hs | hs
  · obtain ⟨t, hst, ht⟩ := hf s hs
    exact ⟨t, hst, Bool.or_eq_true_iff.mpr (.inl ht)⟩
  · obtain ⟨t, hst, ht⟩ := hg s hs
    exact ⟨t, hst, Bool.or_eq_true_iff.mpr (.inr ht)⟩

theorem under (h : Finds ((x, y) :: env) f f') : Finds env (fun s => x != s && f s) (fun t => y != t && f' t) := by
  intro s hs
  obtain ⟨hx, hs⟩ := Bool.and_eq_true_iff.mp hs
  obtain ⟨t, hst, ht⟩ := h s hs
  have hne : s ≠ x := (bne_iff_ne.mp hx).symm
  exact ⟨t, hst.outer hne, Bool.and_eq_true_iff.mpr ⟨bne_iff_ne.mpr (hst.ne_iff.mp hne).symm, ht⟩⟩

theorem row (hlen : vs.length = ws.length)
    (h : ∀ {v w}, (v, w) ∈ vs.zip ws → Finds env v.containsSymbol w.containsSymbol) :
    Finds env (listContainsSymbol · vs) (listContainsSymbol · ws) := by
  intro s hs
  obtain ⟨v, hv, hs⟩ := listContainsSymbol_eq_true.mp hs
  obtain ⟨w, hvw⟩ := Callable.exists_mem_zip hlen hv
  obtain ⟨t, hst, ht⟩ := h hvw s hs
  exact ⟨t, hst, listContainsSymbol_eq_true.mpr ⟨w, (List.of_mem_zip hvw).2, ht⟩⟩

end Finds

/-- Names that are free on both sides and paired are related in another way. -/
def Turns (env : Binders) (R : String → String → Prop) (free free' : String → Bool) : Prop :=
  ∀ s t, free s = true → free' t = true → Paired env s t → R s t

namespace Turns

variable {R R' : String → String → Prop} {f f' g g' : String → Bool}

theorem left (h : Turns env R (fun s => f s || g s) (fun t => f' t || g' t)) : Turns env R f f' :=
  fun s t hs ht => h s t (Bool.or_eq_true_iff.mpr (.inl hs)) (Bool.or_eq_true_iff.mpr (.inl ht))

theorem right (h : Turns env R (fun s => f s || g s) (fun t => f' t || g' t)) : Turns env R g g' :=
  fun s t hs ht => h s t (Bool.or_eq_true_iff.mpr (.inr hs)) (Bool.or_eq_true_iff.mpr (.inr ht))

theorem under (h : Turns env R (fun s => x != s && f s) (fun t => y != t && f' t)) (hxy : R' x y)
    (hR : ∀ s t, f s = true → f' t = true → s ≠ x → t ≠ y → R s t → R' s t) : Turns ((x, y) :: env) R' f f' := by
  rintro s t hs ht (⟨rfl, rfl⟩ | ⟨hsx, hty, hst⟩)
  · exact hxy
  · have hs' := Bool.and_eq_true_iff.mpr ⟨bne_iff_ne.mpr hsx.symm, hs⟩
    have ht' := Bool.and_eq_true_iff.mpr ⟨bne_iff_ne.mpr hty.symm, ht⟩
    exact hR s t hs ht hsx hty (h s t hs' ht' hst)

theorem of_row (h : Turns env R (listContainsSymbol · vs) (listContainsSymbol · ws)) (hvw : (v, w) ∈ vs.zip ws) :
    Turns env R v.containsSymbol w.containsSymbol := by
  obtain ⟨hv, hw⟩ := List.of_mem_zip hvw
  exact fun s t hs ht =>
    h s t (listContainsSymbol_eq_true.mpr ⟨v, hv, hs⟩) (listContainsSymbol_eq_true.mpr ⟨w, hw, ht⟩)

end Turns

namespace Alpha

theorem finds (h : Alpha kept env v w) : Finds env v.containsSymbol w.containsSymbol := by
  induction h with
  | number | bool | constant | set | function => exact fun _ hs => Bool.noConfusion hs
  | symbol h =>
    intro s hs
    cases eq_of_beq (show (_ == s) = true from hs)
    exact ⟨_, h, beq_self_eq_true _⟩
  | sum hlen _ ih | product hlen _ ih | application _ hlen _ ih => exact .row hlen ih
  | factorial _ iha | absolute _ iha => exact iha
  | power _ _ iha ihb | remainder _ _ iha ihb | relation _ _ _ iha ihb | interval _ _ _ _ iha ihb
  | intersection _ _ iha ihb => exact iha.or ihb
  | limit _ _ _ iha ihb => exact iha.or ihb.under
  | bigSum _ _ _ _ iha ihb ihc | bigProduct _ _ _ _ iha ihb ihc => exact (iha.or ihb).or ihc.under

theorem containsSymbol_eq (h : Alpha kept env v w) (hst : Paired env s t) :
    v.containsSymbol s = w.containsSymbol t := by
  rw [Bool.eq_iff_iff]
  constructor
  · intro hs
    obtain ⟨t', hst', ht'⟩ := h.finds s hs
    exact (hst.eq_iff hst').mp rfl ▸ ht'
  · intro ht
    obtain ⟨s', hts', hs'⟩ := h.symm.finds t ht
    exact (hst.symm.eq_iff hts').mp rfl ▸ hs'

/-- Only the binders of free symbols matter. -/
theorem rebind (h : Alpha kept env v w) (henv : Turns env (Paired env') v.containsSymbol w.containsSymbol) :
    Alpha kept env' v w := by
  have hunder {env env' : Binders} {x y : String} {f f' : String → Bool}
      (h : Turns env (Paired env') (fun s => x != s && f s) (fun t => y != t && f' t)) :
      Turns ((x, y) :: env) (Paired ((x, y) :: env')) f f' :=
    h.under .here fun _ _ _ _ => .there
  induction h generalizing env' with
  | number n => exact .number n
  | bool b => exact .bool b
  | constant c => exact .constant c
  | set s => exact .set s
  | function f => exact .function f
  | symbol h => exact .symbol (henv _ _ (beq_self_eq_true _) (beq_self_eq_true _) h)
  | sum hlen _ ih => exact .sum hlen fun hvw => ih hvw (henv.of_row hvw)
  | product hlen _ ih => exact .product hlen fun hvw => ih hvw (henv.of_row hvw)
  | application name hlen _ ih => exact .application name hlen fun hvw => ih hvw (henv.of_row hvw)
  | power _ _ iha ihb => exact .power (iha henv.left) (ihb henv.right)
  | remainder _ _ iha ihb => exact .remainder (iha henv.left) (ihb henv.right)
  | factorial _ iha => exact .factorial (iha henv)
  | absolute _ iha => exact .absolute (iha henv)
  | relation op _ _ iha ihb => exact .relation op (iha henv.left) (ihb henv.right)
  | interval l r _ _ iha ihb => exact .interval l r (iha henv.left) (ihb henv.right)
  | intersection _ _ iha ihb => exact .intersection (iha henv.left) (ihb henv.right)
  | limit hxy _ _ iha ihb => exact .limit hxy (iha henv.left) (ihb (hunder henv.right))
  | bigSum hxy _ _ _ iha ihb ihc =>
    exact .bigSum hxy (iha henv.left.left) (ihb henv.left.right) (ihc (hunder henv.right))
  | bigProduct hxy _ _ _ iha ihb ihc =>
    exact .bigProduct hxy (iha henv.left.left) (ihb henv.left.right) (ihc (hunder henv.right))

end Alpha

/-- The names are paired with themselves. -/
def Fixes (env : Binders) (free : String → Bool) : Prop :=
  ∀ s, free s = true → Paired env s s

namespace Fixes

variable {f g : String → Bool}

theorem left (h : Fixes env fun s => f s || g s) : Fixes env f := fun s hs => h s (Bool.or_eq_true_iff.mpr (.inl hs))

theorem right (h : Fixes env fun s => f s || g s) : Fixes env g := fun s hs => h s (Bool.or_eq_true_iff.mpr (.inr hs))

theorem under (h : Fixes env fun s => x != s && f s) : Fixes ((x, x) :: env) f := by
  intro s hs
  by_cases hx : s = x
  · exact .inl ⟨hx, hx⟩
  · exact .there hx hx (h s (Bool.and_eq_true_iff.mpr ⟨bne_iff_ne.mpr (Ne.symm hx), hs⟩))

end Fixes

mutual

/-- A value is related to itself where its free symbols are paired with themselves. -/
theorem alpha_self (kept : Bool) : (env : Binders) → (v : Value) → Fixes env v.containsSymbol → Alpha kept env v v
  | _, .number n, _ => .number n
  | _, .bool b, _ => .bool b
  | _, .constant c, _ => .constant c
  | _, .set s, _ => .set s
  | _, .function f, _ => .function f
  | _, .symbol s, h => .symbol (h s (beq_self_eq_true s))
  | env, .sum vs, h => .sum_of (alpha_self_row kept env vs h)
  | env, .product vs, h => .product_of (alpha_self_row kept env vs h)
  | env, .application name vs, h => .application_of name (alpha_self_row kept env vs h)
  | env, .power a b, h => .power (alpha_self kept env a h.left) (alpha_self kept env b h.right)
  | env, .remainder a b, h => .remainder (alpha_self kept env a h.left) (alpha_self kept env b h.right)
  | env, .factorial a, h => .factorial (alpha_self kept env a h)
  | env, .absolute a, h => .absolute (alpha_self kept env a h)
  | env, .relation op a b, h => .relation op (alpha_self _ env a h.left) (alpha_self _ env b h.right)
  | env, .interval a b l r, h => .interval l r (alpha_self kept env a h.left) (alpha_self kept env b h.right)
  | env, .intersection a b, h => .intersection (alpha_self kept env a h.left) (alpha_self kept env b h.right)
  | env, .limit _ a b, h =>
    .limit (fun _ => rfl) (alpha_self kept env a h.left) (alpha_self kept _ b h.right.under)
  | env, .bigSum _ a b c, h =>
    .bigSum (fun _ => rfl) (alpha_self kept env a h.left.left) (alpha_self kept env b h.left.right)
      (alpha_self kept _ c h.right.under)
  | env, .bigProduct _ a b c, h =>
    .bigProduct (fun _ => rfl) (alpha_self kept env a h.left.left) (alpha_self kept env b h.left.right)
      (alpha_self kept _ c h.right.under)

/-- The same of a row. -/
theorem alpha_self_row (kept : Bool) (env : Binders) :
    (vs : List Value) → Fixes env (listContainsSymbol · vs) → List.Forall₂ (Alpha kept env) vs vs
  | [], _ => .nil
  | v :: vs, h => .cons (alpha_self kept env v h.left) (alpha_self_row kept env vs h.right)

end

/-! ## What values are asked for -/

theorem listToFloats?_congr (h : List.Forall₂ (fun v w : Value => v.toFloat? = w.toFloat?) vs ws) :
    listToFloats? vs = listToFloats? ws := by
  induction h with
  | nil => rfl
  | cons h _ ih => simp only [listToFloats?, h, ih]

theorem listBigDepth_congr (h : List.Forall₂ (fun v w : Value => v.bigDepth = w.bigDepth) vs ws) :
    listBigDepth vs = listBigDepth ws := by
  induction h with
  | nil => rfl
  | cons h _ ih => exact congrArg₂ max h ih

theorem beqList_congr {vs' ws' : List Value} (h : List.Forall₂ (Alpha true env) vs' ws')
    (hbeq : List.Forall₂ (fun v w : Value => ∀ {v' w'}, Alpha true env v' w' → v.beq v' = w.beq w') vs ws) :
    beqList vs vs' = beqList ws ws' := by
  induction hbeq generalizing vs' ws' with
  | nil => cases h <;> rfl
  | cons hv _ ih =>
    cases h with
    | nil => rfl
    | cons h hs => exact congrArg₂ and (hv h) (ih hs)

theorem and_congr_of {p p' q q' : Bool} (hp : p = p') (hq : p = true → q = q') : (p && q) = (p' && q') := by
  subst hp
  cases p with
  | true => exact hq rfl
  | false => rfl

namespace Alpha

theorem asNumber?_eq (h : Alpha kept env v w) : v.asNumber? = w.asNumber? := by
  cases h <;> rfl

theorem isInfinite_eq (h : Alpha kept env v w) : v.isInfinite = w.isInfinite := by
  cases h <;> rfl

theorem toFloat?_eq (h : Alpha kept env v w) : v.toFloat? = w.toFloat? := by
  induction h with
  | sum hlen _ ih | product hlen _ ih | application _ hlen _ ih =>
    simp only [toFloat?, listToFloats?_congr (List.forall₂_iff_zip.mpr ⟨hlen, ih⟩)]
  | power _ _ iha ihb | remainder _ _ iha ihb => simp only [toFloat?, iha, ihb]
  | factorial _ iha | absolute _ iha => simp only [toFloat?, iha]
  | _ => rfl

theorem isInfiniteEnd_eq (h : Alpha kept env v w) : v.isInfiniteEnd = w.isInfiniteEnd := by
  rw [isInfiniteEnd, isInfiniteEnd, h.toFloat?_eq]

theorem bigDepth_eq (h : Alpha kept env v w) : v.bigDepth = w.bigDepth := by
  induction h with
  | sum hlen _ ih | product hlen _ ih | application _ hlen _ ih =>
    exact listBigDepth_congr (List.forall₂_iff_zip.mpr ⟨hlen, ih⟩)
  | factorial _ iha | absolute _ iha => exact iha
  | power _ _ iha ihb | remainder _ _ iha ihb | relation _ _ _ iha ihb | interval _ _ _ _ iha ihb
  | intersection _ _ iha ihb | limit _ _ _ iha ihb => exact congrArg₂ max iha ihb
  | bigSum _ _ _ _ iha ihb ihc | bigProduct _ _ _ _ iha ihb ihc =>
    exact congrArg₂ max (congrArg₂ max iha ihb) (congrArg (· + 1) ihc)
  | _ => rfl

/-- With the names kept, the equality of trees is the same on both sides. -/
theorem beq_eq (h : Alpha kept env v w) (hkept : kept = true) {v' w' : Value} (h' : Alpha true env v' w') :
    v.beq v' = w.beq w' := by
  induction h generalizing v' w' with
  | number | bool | constant | set | function => cases h' <;> rfl
  | symbol h =>
    cases h' with
    | symbol h' => exact Bool.eq_iff_iff.mpr (beq_iff_eq.trans ((h.eq_iff h').trans beq_iff_eq.symm))
    | _ => rfl
  | sum hlen _ ih =>
    cases h' with
    | sum hlen' h' =>
      exact beqList_congr (List.forall₂_iff_zip.mpr ⟨hlen', h'⟩)
        (List.forall₂_iff_zip.mpr ⟨hlen, fun hp _ _ => ih hp hkept⟩)
    | _ => rfl
  | product hlen _ ih =>
    cases h' with
    | product hlen' h' =>
      exact beqList_congr (List.forall₂_iff_zip.mpr ⟨hlen', h'⟩)
        (List.forall₂_iff_zip.mpr ⟨hlen, fun hp _ _ => ih hp hkept⟩)
    | _ => rfl
  | application name hlen _ ih =>
    cases h' with
    | application name' hlen' h' =>
      exact congrArg (name == name' && ·) (beqList_congr (List.forall₂_iff_zip.mpr ⟨hlen', h'⟩)
        (List.forall₂_iff_zip.mpr ⟨hlen, fun hp _ _ => ih hp hkept⟩))
    | _ => rfl
  | power _ _ iha ihb =>
    cases h' with
    | power ha hb => exact congrArg₂ and (iha hkept ha) (ihb hkept hb)
    | _ => rfl
  | remainder _ _ iha ihb =>
    cases h' with
    | remainder ha hb => exact congrArg₂ and (iha hkept ha) (ihb hkept hb)
    | _ => rfl
  | factorial _ iha =>
    cases h' with
    | factorial ha => exact iha hkept ha
    | _ => rfl
  | absolute _ iha =>
    cases h' with
    | absolute ha => exact iha hkept ha
    | _ => rfl
  | relation op _ _ iha ihb =>
    have hkept : (_ || op.comparesTrees) = true := Bool.or_eq_true_iff.mpr (.inl hkept)
    cases h' with
    | relation op' ha hb => exact congrArg₂ and (congrArg (op == op' && ·) (iha hkept ha)) (ihb hkept hb)
    | _ => rfl
  | interval l r _ _ iha ihb =>
    cases h' with
    | interval l' r' ha hb =>
      exact congrArg (· && l == l' && r == r') (congrArg₂ and (iha hkept ha) (ihb hkept hb))
    | _ => rfl
  | intersection _ _ iha ihb =>
    cases h' with
    | intersection ha hb => exact congrArg₂ and (iha hkept ha) (ihb hkept hb)
    | _ => rfl
  | @limit kept env x _ _ _ _ _ hxy _ _ iha ihb =>
    cases h' with
    | @limit _ _ x' _ _ _ _ _ hxy' ha hb =>
      cases hxy hkept
      cases hxy' rfl
      refine and_congr_of (congrArg (x == x' && ·) (iha hkept ha)) fun h => ?_
      cases eq_of_beq (Bool.and_eq_true_iff.mp h).1
      exact ihb hkept hb
    | _ => rfl
  | @bigSum kept env x _ _ _ _ _ _ _ hxy _ _ _ iha ihb ihc =>
    cases h' with
    | @bigSum _ _ x' _ _ _ _ _ _ _ hxy' ha hb hc =>
      cases hxy hkept
      cases hxy' rfl
      refine and_congr_of (congrArg₂ and (congrArg (x == x' && ·) (iha hkept ha)) (ihb hkept hb)) fun h => ?_
      cases eq_of_beq (Bool.and_eq_true_iff.mp (Bool.and_eq_true_iff.mp h).1).1
      exact ihc hkept hc
    | _ => rfl
  | @bigProduct kept env x _ _ _ _ _ _ _ hxy _ _ _ iha ihb ihc =>
    cases h' with
    | @bigProduct _ _ x' _ _ _ _ _ _ _ hxy' ha hb hc =>
      cases hxy hkept
      cases hxy' rfl
      refine and_congr_of (congrArg₂ and (congrArg (x == x' && ·) (iha hkept ha)) (ihb hkept hb)) fun h => ?_
      cases eq_of_beq (Bool.and_eq_true_iff.mp (Bool.and_eq_true_iff.mp h).1).1
      exact ihc hkept hc
    | _ => rfl

end Alpha

/-! ## Operations -/

theorem numbers_eq (h : List.Forall₂ (Alpha kept env) vs ws) : numbers vs = numbers ws := by
  induction h with
  | nil => rfl
  | cons h _ ih => simp only [numbers, List.filterMap_cons, h.asNumber?_eq] at ih ⊢; rw [ih]

theorem alpha_symbolic (h : List.Forall₂ (Alpha kept env) vs ws) :
    List.Forall₂ (Alpha kept env) (symbolic vs) (symbolic ws) :=
  List.rel_filter (fun _ _ h => Iff.of_eq (congrArg (·.isNone = true) h.asNumber?_eq)) h

theorem any_isInfinite_eq (h : List.Forall₂ (Alpha kept env) vs ws) : vs.any isInfinite = ws.any isInfinite := by
  induction h with
  | nil => rfl
  | cons h _ ih => rw [List.any_cons, List.any_cons, h.isInfinite_eq, ih]

theorem mapM_eq {f : Value → Option Float} (h : List.Forall₂ (Alpha kept env) vs ws)
    (hf : ∀ {v w}, Alpha kept env v w → f v = f w) : vs.mapM f = ws.mapM f := by
  induction h with
  | nil => rfl
  | cons h _ ih => rw [List.mapM_cons, List.mapM_cons, hf h, ih]

theorem ne_nil_iff (h : List.Forall₂ (Alpha kept env) vs ws) : vs ≠ [] ↔ ws ≠ [] := by
  cases h <;> simp

theorem alpha_collect {wrap : List Value → Value}
    (hwrap : ∀ {vs ws}, List.Forall₂ (Alpha kept env) vs ws → Alpha kept env (wrap vs) (wrap ws))
    (h : List.Forall₂ (Alpha kept env) vs ws) : Alpha kept env (collect wrap vs) (collect wrap ws) := by
  cases h with
  | nil => exact hwrap .nil
  | cons h hs =>
    cases hs with
    | nil => exact h
    | cons h' hs => exact hwrap (.cons h (.cons h' hs))

namespace Alpha

theorem terms (h : Alpha kept env v w) : List.Forall₂ (Alpha kept env) v.terms w.terms := by
  have h' := h
  cases h with
  | sum hlen h => exact List.forall₂_iff_zip.mpr ⟨hlen, h⟩
  | _ => exact .cons h' .nil

theorem factors (h : Alpha kept env v w) : List.Forall₂ (Alpha kept env) v.factors w.factors := by
  have h' := h
  cases h with
  | product hlen h => exact List.forall₂_iff_zip.mpr ⟨hlen, h⟩
  | _ => exact .cons h' .nil

theorem ofTerms (h : List.Forall₂ (Alpha kept env) vs ws) : Alpha kept env (ofTerms vs) (ofTerms ws) := by
  unfold Value.ofTerms
  rw [← numbers_eq h]
  simp only [← ne_nil_iff (alpha_symbolic h)]
  refine alpha_collect sum_of ?_
  split
  · exact alpha_symbolic h
  · exact List.rel_append (alpha_symbolic h) (.cons (.number _) .nil)

theorem ofFactors (h : List.Forall₂ (Alpha kept env) vs ws) : Alpha kept env (ofFactors vs) (ofFactors ws) := by
  unfold Value.ofFactors
  rw [← numbers_eq h]
  simp only [← ne_nil_iff (alpha_symbolic h), ← any_isInfinite_eq (alpha_symbolic h)]
  split
  · exact .number _
  · refine alpha_collect product_of ?_
    split
    · exact alpha_symbolic h
    · exact .cons (.number _) (alpha_symbolic h)

theorem fact (h : Alpha kept env a a') : Alpha kept env a.fact a'.fact := by
  have h' := h
  cases h with
  | number n =>
    unfold Value.fact
    dsimp only
    split
    · exact .number _
    · split
      · exact .constant _
      · exact .factorial (.number n)
  | _ => exact .factorial h'

theorem abs (h : Alpha kept env a a') : Alpha kept env a.abs a'.abs := by
  have h' := h
  cases h with
  | number n => exact .number _
  | absolute => exact h'
  | _ => exact .absolute h'

section

variable (ha : Alpha kept env a a') (hb : Alpha kept env b b')

include ha hb

theorem add : Alpha kept env (add a b) (add a' b') := .ofTerms (List.rel_append ha.terms hb.terms)

theorem mul : Alpha kept env (mul a b) (mul a' b') := .ofFactors (List.rel_append ha.factors hb.factors)

theorem mod : Alpha kept env (mod a b) (mod a' b') := by
  unfold Value.mod
  rw [← ha.asNumber?_eq, ← hb.asNumber?_eq]
  dsimp only
  split
  · exact .number _
  · exact .remainder ha hb

theorem pow : Alpha kept env (pow a b) (pow a' b') := by
  unfold Value.pow
  rw [← ha.asNumber?_eq, ← hb.asNumber?_eq]
  have hpower : Alpha kept env (if a.asNumber?.any Number.isOne then one else .power a b)
      (if a.asNumber?.any Number.isOne then one else .power a' b') := by
    split
    · exact .number _
    · exact .power ha hb
  cases b.asNumber? with
  | none => exact hpower
  | some e =>
    dsimp only [Option.bind_eq_bind, Option.bind_some]
    by_cases hzero : e.isZero = true
    · rw [if_pos hzero, if_pos hzero]
      exact .number _
    rw [if_neg hzero, if_neg hzero]
    by_cases hone : e.isOne = true
    · rw [if_pos hone, if_pos hone]
      exact ha
    rw [if_neg hone, if_neg hone]
    cases hn : a.asNumber? with
    | none =>
      rw [hn] at hpower
      exact hpower
    | some n =>
      rw [hn] at hpower
      dsimp only [Option.bind_some]
      cases n.pow? e with
      | some r => exact .number r
      | none =>
        by_cases hpole : (n.isZero && e.isNegative) = true
        · simp only [if_pos hpole]
          exact .constant _
        · simp only [if_neg hpole]
          exact hpower

theorem between (leftOpen rightOpen : Bool) :
    Alpha kept env (between a b leftOpen rightOpen) (between a' b' leftOpen rightOpen) := by
  unfold Value.between
  rw [ha.isInfiniteEnd_eq, hb.isInfiniteEnd_eq]
  exact .interval _ _ ha hb

theorem restrict : Alpha kept env (restrict a b) (restrict a' b') := by
  unfold Value.restrict
  split
  · cases ha
    cases hb with
    | interval _ _ hlower hupper => exact .interval _ _ hlower hupper
  · cases ha
    cases hb with
    | interval _ _ hlower hupper => exact .interval _ _ hlower hupper
  · rename_i hreals hcomplexes
    split
    · cases ha
      cases hb
      exact absurd rfl (hreals _ _ _ _ rfl)
    · cases ha
      cases hb
      exact absurd rfl (hcomplexes _ _ _ _ rfl)
    · exact .intersection ha hb

end

theorem order?_eq {op : Relation} (ha : Alpha (kept || op.comparesTrees) env a a')
    (hb : Alpha (kept || op.comparesTrees) env b b') : order? op a b = order? op a' b' := by
  unfold order?
  rw [ha.asNumber?_eq, hb.asNumber?_eq, ha.toFloat?_eq, hb.toFloat?_eq]
  cases hop : op.comparesTrees with
  | true =>
    rw [hop, Bool.or_true] at ha hb
    rw [show (a == b) = (a' == b') from ha.beq_eq rfl hb]
  | false =>
    have hop : (op == .eq || op == .ne) = false := hop
    simp only [hop, Bool.and_false]

theorem relate (op : Relation) (ha : Alpha (kept || op.comparesTrees) env a a')
    (hb : Alpha (kept || op.comparesTrees) env b b') : Alpha kept env (relate op a b) (relate op a' b') := by
  unfold Value.relate
  rw [ha.order?_eq hb]
  split
  · exact .bool _
  · exact .relation op ha hb

theorem apply (name : String) (h : List.Forall₂ (Alpha kept env) vs ws) :
    Alpha kept env (apply name vs) (apply name ws) := by
  unfold Value.apply
  dsimp only
  rw [mapM_eq h]
  · split
    · cases h with
      | cons h hs =>
        cases hs
        exact h.abs
    · cases h
      split
      · contradiction
      · exact .application_of _ .nil
      · contradiction
    · rename_i hempty habs
      have hempty' : ws ≠ [] := (ne_nil_iff h).mp hempty
      have habs' : ∀ a, name = "abs" → ws ≠ [a] := by
        rintro a hname rfl
        cases h with
        | cons _ hs =>
          cases hs
          exact habs _ hname rfl
      generalize Option.bind _ (Builtin.evaluate? name) = result
      cases result with
      | some r =>
        dsimp only
        split
        · exact absurd rfl (habs' _ rfl)
        · exact absurd rfl hempty'
        · exact .number _
      | none =>
        dsimp only
        split
        · exact absurd rfl (habs' _ rfl)
        · exact absurd rfl hempty'
        · exact .application_of name h
  · intro v w h
    cases h <;> rfl

/-- A limit is dropped on both sides or on none. -/
theorem limitOf (hxy : kept = true → x = y) (ha : Alpha kept env a a') (hb : Alpha kept ((x, y) :: env) b b') :
    Alpha kept env (limitOf x a b) (limitOf y a' b') := by
  unfold Value.limitOf
  rw [← hb.containsSymbol_eq .here]
  split
  · exact .limit hxy ha hb
  · rename_i hx
    refine hb.rebind fun s t hs _ hst => hst.outer ?_
    rintro rfl
    exact hx hs

theorem node (op : BigOperator) (hxy : kept = true → x = y) (ha : Alpha kept env a a') (hb : Alpha kept env b b')
    (hc : Alpha kept ((x, y) :: env) c c') : Alpha kept env (op.node x a b c) (op.node y a' b' c') := by
  cases op
  · exact .bigSum hxy ha hb hc
  · exact .bigProduct hxy ha hb hc

theorem combine (op : BigOperator) (ha : Alpha kept env a a') (hb : Alpha kept env b b') :
    Alpha kept env (op.combine a b) (op.combine a' b') := by
  cases op
  · exact ha.add hb
  · exact ha.mul hb

end Alpha

end Value

end Formula
