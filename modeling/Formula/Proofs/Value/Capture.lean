import Mathlib.Data.List.Find
import Formula.Proofs.Value.Alpha

/-!
# Substitution and the names of bound variables

A replacement is captured where it is put in the body of a binder whose variable is free in it. Substitution leaves out
the targets that a binder binds, but it renames no binder, so that it captures, and what it gives then depends on the
names of bound variables (`row_captures`).

Captures are the only way in which it does. A value `admits` replacements if none of them is captured anywhere in it.
Substitution in values that differ in the names of bound variables, and that both admit the replacements, gives values
that differ in these names alone (`alpha_replaceWith`), also where a range is folded on the way (`alpha_foldAt`): the
variable of a range is replaced by numbers, in which no symbol is free.
-/

namespace Formula.Value

/-- A replacement that is put in the body of a binder and has the variable of the binder free. -/
def captures (var : String) (body : Value) : Value × Value → Bool
  | (.symbol s, w) => s != var && body.containsSymbol s && w.containsSymbol var
  | _ => false

mutual

/-- No replacement is captured by a binder in the value. -/
def admits (pairs : List (Value × Value)) (v : Value) : Bool :=
  match v with
  | .sum vs => listAdmits pairs vs
  | .product vs => listAdmits pairs vs
  | .application _ vs => listAdmits pairs vs
  | .power a b => admits pairs a && admits pairs b
  | .remainder a b => admits pairs a && admits pairs b
  | .factorial a => admits pairs a
  | .absolute a => admits pairs a
  | .relation _ a b => admits pairs a && admits pairs b
  | .interval a b _ _ => admits pairs a && admits pairs b
  | .intersection a b => admits pairs a && admits pairs b
  | .limit var a b =>
    admits pairs a && (!pairs.any (captures var b) && admits (withoutSymbol var pairs) b)
  | .bigSum var a b c =>
    (admits pairs a && admits pairs b) && (!pairs.any (captures var c) && admits (withoutSymbol var pairs) c)
  | .bigProduct var a b c =>
    (admits pairs a && admits pairs b) && (!pairs.any (captures var c) && admits (withoutSymbol var pairs) c)
  | _ => true
termination_by structural v

/-- No replacement is captured in the values of a row. -/
def listAdmits (pairs : List (Value × Value)) : List Value → Bool
  | [] => true
  | v :: vs => admits pairs v && listAdmits pairs vs
termination_by structural vs => vs

end

variable {kept : Bool} {env env' : Binders} {s t x y : String} {a a' b b' c c' v w : Value} {vs ws : List Value}
  {pairs pairs' : List (Value × Value)}

/-! ## Replacements -/

/-- Only symbols are replaced. -/
def Targets (pairs : List (Value × Value)) : Prop :=
  ∀ p ∈ pairs, ∃ s, p.1 = .symbol s

theorem eq_of_beq_symbol (h : (v == .symbol s) = true) : v = .symbol s := by
  cases v with
  | symbol r => exact congrArg _ (eq_of_beq (show (r == s) = true from h))
  | _ => exact Bool.noConfusion h

theorem Targets.withoutSymbol (h : Targets pairs) (var : String) : Targets (withoutSymbol var pairs) :=
  fun p hp => h p (List.mem_of_mem_filter hp)

theorem Targets.replacement?_eq_none (h : Targets pairs) (hv : ∀ s, v ≠ .symbol s) : replacement? pairs v = none := by
  refine Option.map_eq_none_iff.mpr (List.find?_eq_none.mpr fun p hp => ?_)
  obtain ⟨s, hs⟩ := h p hp
  rw [hs]
  cases v with
  | symbol s => exact absurd rfl (hv s)
  | _ => exact Bool.false_ne_true

theorem mem_of_replacement? (h : replacement? pairs (.symbol s) = some w) : (.symbol s, w) ∈ pairs := by
  obtain ⟨⟨target, w⟩, hp, rfl⟩ := Option.map_eq_some_iff.mp h
  have hbeq := List.find?_some hp
  cases eq_of_beq_symbol hbeq
  exact List.mem_of_find?_eq_some hp

theorem replacement?_singleton : replacement? [(.symbol s, w)] (.symbol s) = some w := by
  have hbeq : (Value.symbol s == .symbol s) = true := beq_self_eq_true s
  simp only [replacement?, List.find?_cons, hbeq, Option.map_some]

theorem replacement?_singleton_of_ne (h : s ≠ t) : replacement? [(.symbol t, w)] (.symbol s) = none := by
  refine Option.map_eq_none_iff.mpr (List.find?_eq_none.mpr (List.forall_mem_singleton.mpr fun hbeq => h ?_))
  cases eq_of_beq_symbol hbeq
  rfl

theorem replacement?_withoutSymbol (hs : s ≠ x) :
    replacement? (withoutSymbol x pairs) (.symbol s) = replacement? pairs (.symbol s) := by
  unfold replacement? withoutSymbol
  rw [List.find?_filter]
  refine congrArg _ (List.find?_congr fun p _ => ?_)
  by_cases h : (p.1 == symbol s) = true
  · obtain ⟨_, w⟩ := p
    cases eq_of_beq_symbol h
    rw [h]
    exact decide_eq_true ⟨bne_iff_ne.mpr hs, rfl⟩
  · rw [Bool.not_eq_true] at h
    rw [h]
    exact decide_eq_false fun h => nomatch h.2

theorem replacement?_withoutSymbol_self : replacement? (withoutSymbol x pairs) (.symbol x) = none := by
  refine Option.map_eq_none_iff.mpr (List.find?_eq_none.mpr fun p hp h => ?_)
  have hfilter := (List.mem_filter.mp hp).2
  obtain ⟨target, w⟩ := p
  cases eq_of_beq_symbol h
  exact bne_iff_ne.mp hfilter rfl

/-- Symbols on the two sides are replaced by the same value, with free symbols that nothing around binds, or stay and
mean the same. -/
def Replaced (env : Binders) (pairs pairs' : List (Value × Value)) (s t : String) : Prop :=
  (∃ w, replacement? pairs (.symbol s) = some w ∧ replacement? pairs' (.symbol t) = some w ∧
    Fixes env w.containsSymbol) ∨
  replacement? pairs (.symbol s) = none ∧ replacement? pairs' (.symbol t) = none ∧ Paired env s t

/-- A replacement is free of a variable. -/
def Spares (pairs : List (Value × Value)) (var s : String) : Prop :=
  ∀ w, replacement? pairs (.symbol s) = some w → w.containsSymbol var = false

theorem Replaced.under (h : Replaced env pairs pairs' s t) (hs : s ≠ x) (ht : t ≠ y) (hx : Spares pairs x s)
    (hy : Spares pairs' y t) :
    Replaced ((x, y) :: env) (withoutSymbol x pairs) (withoutSymbol y pairs') s t := by
  unfold Replaced
  rw [replacement?_withoutSymbol hs, replacement?_withoutSymbol ht]
  refine h.imp ?_ fun ⟨hnone, hnone', hst⟩ => ⟨hnone, hnone', hst.there hs ht⟩
  rintro ⟨w, hw, hw', hfix⟩
  have hne {z r : String} (hz : w.containsSymbol z = false) (hr : w.containsSymbol r = true) : r ≠ z := by
    rintro rfl
    rw [hz] at hr
    cases hr
  exact ⟨w, hw, hw', fun r hr => .there (hne (hx w hw) hr) (hne (hy w hw') hr) (hfix r hr)⟩

theorem spares_of_captures (h : (!pairs.any (captures x b)) = true) (hb : b.containsSymbol s = true) (hs : s ≠ x) :
    Spares pairs x s := by
  intro w hw
  have hnot := List.any_eq_false.mp ((Bool.not_eq_true' _).mp h) _ (mem_of_replacement? hw)
  rw [captures, hb, bne_iff_ne.mpr hs, Bool.true_and, Bool.true_and] at hnot
  exact Bool.eq_false_of_not_eq_true hnot

/-- Under binders that capture nothing, symbols are replaced as outside. -/
theorem Turns.binder
    (h : Turns env (Replaced env' pairs pairs') (fun s => x != s && b.containsSymbol s)
      fun t => y != t && b'.containsSymbol t)
    (hx : (!pairs.any (captures x b)) = true) (hy : (!pairs'.any (captures y b')) = true) :
    Turns ((x, y) :: env) (Replaced ((x, y) :: env') (withoutSymbol x pairs) (withoutSymbol y pairs'))
      b.containsSymbol b'.containsSymbol :=
  h.under (.inr ⟨replacement?_withoutSymbol_self, replacement?_withoutSymbol_self, .here⟩)
    fun _ _ hs ht hsx hty hst => hst.under hsx hty (spares_of_captures hx hs hsx) (spares_of_captures hy ht hty)

theorem admits_of_mem (h : listAdmits pairs vs = true) (hv : v ∈ vs) : v.admits pairs = true := by
  induction vs with
  | nil => exact nomatch hv
  | cons u us ih =>
    have h := Bool.and_eq_true_iff.mp h
    rcases List.mem_cons.mp hv with rfl | hv
    · exact h.1
    · exact ih h.2 hv

/-! ## Substitution -/

theorem replaceList_eq_map {fold : Folding} : replaceList fold pairs vs = vs.map (replaceWith fold pairs) := by
  induction vs with
  | nil => rfl
  | cons v vs ih => rw [replaceList, ih, List.map_cons]

theorem alpha_replaceList {fold : Folding} (hlen : vs.length = ws.length)
    (h : ∀ {v w}, (v, w) ∈ vs.zip ws → Alpha kept env (replaceWith fold pairs v) (replaceWith fold pairs' w)) :
    List.Forall₂ (Alpha kept env) (replaceList fold pairs vs) (replaceList fold pairs' ws) := by
  rw [replaceList_eq_map, replaceList_eq_map, List.forall₂_map_left_iff, List.forall₂_map_right_iff]
  exact List.forall₂_iff_zip.mpr ⟨hlen, h⟩

theorem alpha_foldl {op : Value → Value → Value}
    (hop : ∀ {a a' b b'}, Alpha kept env a a' → Alpha kept env b b' → Alpha kept env (op a b) (op a' b'))
    (h : List.Forall₂ (Alpha kept env) vs ws) (ha : Alpha kept env a a') :
    Alpha kept env (vs.foldl op a) (ws.foldl op a') := by
  induction h generalizing a a' with
  | nil => exact ha
  | cons h _ ih => exact ih (hop ha h)

/-- The way of folding takes related operands to related results. -/
structure Folding.Respects (fold : Folding) : Prop where
  alpha : ∀ {kept : Bool} {env : Binders} {op x y a a' b b' c c'}, (kept = true → x = y) → Alpha kept env a a' →
    Alpha kept env b b' → Alpha kept ((x, y) :: env) c c' → Alpha kept env (fold op x a b c) (fold op y a' b' c')

/-- Where nothing is captured, substitution takes related values to related values. -/
theorem alpha_replaceWith {fold : Folding} (hfold : fold.Respects) (h : Alpha kept env v w) (hpairs : Targets pairs)
    (hpairs' : Targets pairs') (hturns : Turns env (Replaced env' pairs pairs') v.containsSymbol w.containsSymbol)
    (hv : v.admits pairs = true) (hw : w.admits pairs' = true) :
    Alpha kept env' (replaceWith fold pairs v) (replaceWith fold pairs' w) := by
  induction h generalizing env' pairs pairs' with
  | symbol h =>
    unfold replaceWith
    rcases hturns _ _ (beq_self_eq_true _) (beq_self_eq_true _) h with ⟨w, hs, ht, hfix⟩ | ⟨hs, ht, hst⟩
    · rw [hs, ht]
      exact alpha_self _ _ w hfix
    · rw [hs, ht]
      exact .symbol hst
  | number | bool | constant | set | function =>
    unfold replaceWith
    rw [hpairs.replacement?_eq_none, hpairs'.replacement?_eq_none]
    · constructor
    all_goals exact fun _ => nofun
  | sum hlen _ ih =>
    unfold replaceWith
    rw [hpairs.replacement?_eq_none, hpairs'.replacement?_eq_none]
    · refine alpha_foldl Alpha.add (alpha_replaceList hlen fun h => ?_) (.number _)
      obtain ⟨hl, hr⟩ := List.of_mem_zip h
      exact ih h hpairs hpairs' (hturns.of_row h) (admits_of_mem hv hl) (admits_of_mem hw hr)
    all_goals exact fun _ => nofun
  | product hlen _ ih =>
    unfold replaceWith
    rw [hpairs.replacement?_eq_none, hpairs'.replacement?_eq_none]
    · refine alpha_foldl Alpha.mul (alpha_replaceList hlen fun h => ?_) (.number _)
      obtain ⟨hl, hr⟩ := List.of_mem_zip h
      exact ih h hpairs hpairs' (hturns.of_row h) (admits_of_mem hv hl) (admits_of_mem hw hr)
    all_goals exact fun _ => nofun
  | application name hlen _ ih =>
    unfold replaceWith
    rw [hpairs.replacement?_eq_none, hpairs'.replacement?_eq_none]
    · refine .apply name (alpha_replaceList hlen fun h => ?_)
      obtain ⟨hl, hr⟩ := List.of_mem_zip h
      exact ih h hpairs hpairs' (hturns.of_row h) (admits_of_mem hv hl) (admits_of_mem hw hr)
    all_goals exact fun _ => nofun
  | factorial _ iha =>
    unfold replaceWith
    rw [hpairs.replacement?_eq_none, hpairs'.replacement?_eq_none]
    · exact (iha hpairs hpairs' hturns hv hw).fact
    all_goals exact fun _ => nofun
  | absolute _ iha =>
    unfold replaceWith
    rw [hpairs.replacement?_eq_none, hpairs'.replacement?_eq_none]
    · exact (iha hpairs hpairs' hturns hv hw).abs
    all_goals exact fun _ => nofun
  | power _ _ iha ihb =>
    have hv := Bool.and_eq_true_iff.mp hv
    have hw := Bool.and_eq_true_iff.mp hw
    unfold replaceWith
    rw [hpairs.replacement?_eq_none, hpairs'.replacement?_eq_none]
    · exact (iha hpairs hpairs' hturns.left hv.1 hw.1).pow (ihb hpairs hpairs' hturns.right hv.2 hw.2)
    all_goals exact fun _ => nofun
  | remainder _ _ iha ihb =>
    have hv := Bool.and_eq_true_iff.mp hv
    have hw := Bool.and_eq_true_iff.mp hw
    unfold replaceWith
    rw [hpairs.replacement?_eq_none, hpairs'.replacement?_eq_none]
    · exact (iha hpairs hpairs' hturns.left hv.1 hw.1).mod (ihb hpairs hpairs' hturns.right hv.2 hw.2)
    all_goals exact fun _ => nofun
  | intersection _ _ iha ihb =>
    have hv := Bool.and_eq_true_iff.mp hv
    have hw := Bool.and_eq_true_iff.mp hw
    unfold replaceWith
    rw [hpairs.replacement?_eq_none, hpairs'.replacement?_eq_none]
    · exact (iha hpairs hpairs' hturns.left hv.1 hw.1).restrict (ihb hpairs hpairs' hturns.right hv.2 hw.2)
    all_goals exact fun _ => nofun
  | relation op _ _ iha ihb =>
    have hv := Bool.and_eq_true_iff.mp hv
    have hw := Bool.and_eq_true_iff.mp hw
    unfold replaceWith
    rw [hpairs.replacement?_eq_none, hpairs'.replacement?_eq_none]
    · exact .relate op (iha hpairs hpairs' hturns.left hv.1 hw.1) (ihb hpairs hpairs' hturns.right hv.2 hw.2)
    all_goals exact fun _ => nofun
  | interval l r _ _ iha ihb =>
    have hv := Bool.and_eq_true_iff.mp hv
    have hw := Bool.and_eq_true_iff.mp hw
    unfold replaceWith
    rw [hpairs.replacement?_eq_none, hpairs'.replacement?_eq_none]
    · exact (iha hpairs hpairs' hturns.left hv.1 hw.1).between (ihb hpairs hpairs' hturns.right hv.2 hw.2) l r
    all_goals exact fun _ => nofun
  | limit hxy _ _ iha ihb =>
    have hv := Bool.and_eq_true_iff.mp hv
    have hw := Bool.and_eq_true_iff.mp hw
    have hvb := Bool.and_eq_true_iff.mp hv.2
    have hwb := Bool.and_eq_true_iff.mp hw.2
    unfold replaceWith
    rw [hpairs.replacement?_eq_none, hpairs'.replacement?_eq_none]
    · exact .limitOf hxy (iha hpairs hpairs' hturns.left hv.1 hw.1)
        (ihb (hpairs.withoutSymbol _) (hpairs'.withoutSymbol _) (hturns.right.binder hvb.1 hwb.1) hvb.2 hwb.2)
    all_goals exact fun _ => nofun
  | bigSum hxy _ _ _ iha ihb ihc | bigProduct hxy _ _ _ iha ihb ihc =>
    have hv := Bool.and_eq_true_iff.mp hv
    have hw := Bool.and_eq_true_iff.mp hw
    have hvab := Bool.and_eq_true_iff.mp hv.1
    have hwab := Bool.and_eq_true_iff.mp hw.1
    have hvc := Bool.and_eq_true_iff.mp hv.2
    have hwc := Bool.and_eq_true_iff.mp hw.2
    unfold replaceWith
    rw [hpairs.replacement?_eq_none, hpairs'.replacement?_eq_none]
    · exact hfold.alpha hxy (iha hpairs hpairs' hturns.left.left hvab.1 hwab.1)
        (ihb hpairs hpairs' hturns.left.right hvab.2 hwab.2)
        (ihc (hpairs.withoutSymbol _) (hpairs'.withoutSymbol _) (hturns.right.binder hvc.1 hwc.1) hvc.2 hwc.2)
    all_goals exact fun _ => nofun

/-! ## Ranges -/

/-- No symbol is free in the replacements. -/
def Closed (pairs : List (Value × Value)) : Prop :=
  ∀ p ∈ pairs, ∀ s, p.2.containsSymbol s = false

theorem Closed.withoutSymbol (h : Closed pairs) (var : String) : Closed (withoutSymbol var pairs) :=
  fun p hp => h p (List.mem_of_mem_filter hp)

theorem Closed.any_captures (h : Closed pairs) : (!pairs.any (captures x b)) = true := by
  refine (Bool.not_eq_true' _).mpr (List.any_eq_false.mpr fun p hp => Bool.not_eq_true _ ▸ ?_)
  have hclosed := h p hp x
  obtain ⟨target, w⟩ := p
  cases target with
  | symbol s => rw [captures, hclosed, Bool.and_false]
  | _ => rfl

mutual

/-- Replacements without free symbols are never captured. -/
theorem Closed.admits : {pairs : List (Value × Value)} → Closed pairs → (v : Value) → v.admits pairs = true
  | _, _, .number _ | _, _, .bool _ | _, _, .symbol _ | _, _, .constant _ | _, _, .set _ | _, _, .function _ => rfl
  | _, h, .sum vs | _, h, .product vs | _, h, .application _ vs => h.listAdmits vs
  | _, h, .factorial a | _, h, .absolute a => h.admits a
  | _, h, .power a b | _, h, .remainder a b | _, h, .relation _ a b | _, h, .interval a b _ _
  | _, h, .intersection a b => Bool.and_eq_true_iff.mpr ⟨h.admits a, h.admits b⟩
  | _, h, .limit x a b =>
    Bool.and_eq_true_iff.mpr
      ⟨h.admits a, Bool.and_eq_true_iff.mpr ⟨h.any_captures, (h.withoutSymbol x).admits b⟩⟩
  | _, h, .bigSum x a b c | _, h, .bigProduct x a b c =>
    Bool.and_eq_true_iff.mpr ⟨Bool.and_eq_true_iff.mpr ⟨h.admits a, h.admits b⟩,
      Bool.and_eq_true_iff.mpr ⟨h.any_captures, (h.withoutSymbol x).admits c⟩⟩

theorem Closed.listAdmits : {pairs : List (Value × Value)} → Closed pairs → (vs : List Value) →
    listAdmits pairs vs = true
  | _, _, [] => rfl
  | _, h, v :: vs => Bool.and_eq_true_iff.mpr ⟨h.admits v, h.listAdmits vs⟩

end

theorem Alpha.range?_eq (ha : Alpha kept env a a') (hb : Alpha kept env b b') : range? a b = range? a' b' := by
  unfold range?
  rw [ha.asNumber?_eq, hb.asNumber?_eq]

/-- The body of a range is taken at numbers, whatever the variable is called. -/
theorem alpha_at {fold : Folding} (hfold : fold.Respects) (hc : Alpha kept ((x, y) :: env) c c') (k : Int) :
    Alpha kept env (replaceWith fold [(.symbol x, int k)] c) (replaceWith fold [(.symbol y, int k)] c') := by
  have htargets (z : String) : Targets [(.symbol z, int k)] := List.forall_mem_singleton.mpr ⟨z, rfl⟩
  have hclosed (z : String) : Closed [(.symbol z, int k)] := List.forall_mem_singleton.mpr fun _ => rfl
  refine alpha_replaceWith hfold hc (htargets x) (htargets y) ?_ ((hclosed x).admits c) ((hclosed y).admits c')
  rintro s t - - (⟨rfl, rfl⟩ | ⟨hs, ht, hst⟩)
  · exact .inl ⟨_, replacement?_singleton, replacement?_singleton, fun _ => nofun⟩
  · exact .inr ⟨replacement?_singleton_of_ne hs, replacement?_singleton_of_ne ht, hst⟩

theorem alpha_foldAt (depth : Nat) : Folding.Respects (foldAt depth) := by
  induction depth with
  | zero => exact ⟨fun hxy ha hb hc => .node _ hxy ha hb hc⟩
  | succ depth ih =>
    refine ⟨fun {kept env op x y a a' b b' c c'} hxy ha hb hc => ?_⟩
    unfold foldAt
    rw [ha.range?_eq hb]
    cases range? a' b' with
    | none => exact .node _ hxy ha hb hc
    | some ks =>
      have hunit : Alpha kept env op.unit op.unit := by cases op <;> exact .number _
      have hks : List.Forall₂ (Alpha kept env) (ks.map fun k => replaceWith (foldAt depth) [(.symbol x, int k)] c)
          (ks.map fun k => replaceWith (foldAt depth) [(.symbol y, int k)] c') := by
        rw [List.forall₂_map_left_iff, List.forall₂_map_right_iff]
        exact List.forall₂_same.mpr fun k _ => alpha_at ih hc k
      have hfold := alpha_foldl (.combine op) hks hunit
      rwa [List.foldl_map, List.foldl_map] at hfold

theorem alpha_big : Folding.Respects big where
  alpha hxy ha hb hc := by
    unfold big
    rw [hc.bigDepth_eq]
    exact (alpha_foldAt _).alpha hxy ha hb hc

/-! ## Calls -/

/-- Calls that fail alike, or give values that differ in the names of bound variables alone. -/
inductive SameResult : Except ArityMismatch Value → Except ArityMismatch Value → Prop where
  | ok {v w : Value} (h : AlphaEq v w) : SameResult (.ok v) (.ok w)
  | error (e : ArityMismatch) : SameResult (.error e) (.error e)

theorem SameResult.alphaEq (h : SameResult (.ok v) (.ok w)) : AlphaEq v w := by
  cases h
  assumption

theorem AlphaEq.replaceAll (h : AlphaEq v w) (hpairs : Targets pairs) (hv : v.admits pairs = true)
    (hw : w.admits pairs = true) : AlphaEq (v.replaceAll pairs) (w.replaceAll pairs) := by
  refine alpha_replaceWith alpha_big h hpairs hpairs ?_ hv hw
  rintro s _ - - rfl
  unfold Replaced
  cases replacement? pairs (.symbol s) with
  | some u => exact .inl ⟨u, rfl, rfl, fun _ _ => rfl⟩
  | none => exact .inr ⟨rfl, rfl, rfl⟩

/-- Where nothing is captured, substitution and calls do not depend on the names of bound variables. -/
theorem AlphaEq.subst_and_call (h : AlphaEq v w) :
    (∀ x u, v.admits [(.symbol x, u)] = true → w.admits [(.symbol x, u)] = true →
      AlphaEq (v.subst x u) (w.subst x u)) ∧
    ∀ name (params : List String) args, v.admits ((params.map .symbol).zip args) = true →
      w.admits ((params.map .symbol).zip args) = true →
      SameResult (Callable.call (.defined name (params.map .symbol) v) args)
        (Callable.call (.defined name (params.map .symbol) w) args) := by
  constructor
  · intro x u hv hw
    exact h.replaceAll (List.forall_mem_singleton.mpr ⟨x, rfl⟩) hv hw
  · intro name params args hv hw
    have htargets : Targets ((params.map .symbol).zip args) := by
      intro p hp
      obtain ⟨s, -, hs⟩ := List.mem_map.mp (List.of_mem_zip hp).1
      exact ⟨s, hs.symm⟩
    have hresult := h.replaceAll htargets hv hw
    have harity : Callable.checkArity (.defined name (params.map .symbol) v) args.length =
      Callable.checkArity (.defined name (params.map .symbol) w) args.length := rfl
    rw [Callable.call, Callable.call, harity]
    cases Callable.checkArity (.defined name (params.map .symbol) w) args.length with
    | error e => exact .error e
    | ok u => exact .ok hresult

/-- The sum of `kx` over `k` from one to `n`, with a name for `k`. -/
def row (k : String) : Value :=
  .bigSum k (int 1) (.symbol "n") (.product [.symbol k, .symbol "x"])

/-- The names of the rows do not matter, also where `y` is put in the place of `x`. -/
theorem alphaEq_row {j k : String} (hj : "x" ≠ j) (hk : "x" ≠ k) : AlphaEq (row k) (row j) := by
  refine .bigSum nofun (.number _) (.symbol rfl) (.product_of (.cons (.symbol .here) (.cons (.symbol ?_) .nil)))
  exact .there hk hj rfl

/-- A row of three with `y` for `x`, whatever its variable is called. -/
theorem subst_and_call_row :
    (AlphaEq (row "k") (row "j") ∧ (row "k").admits [(.symbol "x", .symbol "y")] = true ∧
      (row "j").admits [(.symbol "x", .symbol "y")] = true) ∧
    AlphaEq ((row "k").subst "x" (.symbol "y")) ((row "j").subst "x" (.symbol "y")) ∧
    ∃ v w, Callable.call (.defined "f" [.symbol "n", .symbol "x"] (row "k")) [int 3, .symbol "y"] = .ok v ∧
      Callable.call (.defined "f" [.symbol "n", .symbol "x"] (row "j")) [int 3, .symbol "y"] = .ok w ∧ AlphaEq v w := by
  have h : AlphaEq (row "k") (row "j") := alphaEq_row (by decide) (by decide)
  obtain ⟨hsubst, hcall⟩ := h.subst_and_call
  exact ⟨⟨h, rfl, rfl⟩, hsubst "x" (.symbol "y") rfl rfl, _, _, rfl, rfl,
    SameResult.alphaEq (hcall "f" ["n", "x"] [int 3, .symbol "y"] rfl rfl)⟩

/-- With `k` for `x` the row over `k` captures, and the row over `j` does not. -/
theorem row_captures :
    AlphaEq (row "k") (row "j") ∧ ¬ AlphaEq ((row "k").subst "x" (.symbol "k")) ((row "j").subst "x" (.symbol "k")) ∧
    Callable.call (.defined "f" [.symbol "n", .symbol "x"] (row "k")) [int 3, .symbol "k"] = .ok (int 14) ∧
    Callable.call (.defined "f" [.symbol "n", .symbol "x"] (row "j")) [int 3, .symbol "k"] =
      .ok (.sum [.symbol "k", .product [int 2, .symbol "k"], .product [int 3, .symbol "k"]]) := by
  refine ⟨alphaEq_row (by decide) (by decide), fun h => ?_, rfl, rfl⟩
  have h : Alpha false [] (.bigSum "k" (int 1) (.symbol "n") (.product [.symbol "k", .symbol "k"]))
      (.bigSum "j" (int 1) (.symbol "n") (.product [.symbol "j", .symbol "k"])) := h
  cases h with
  | bigSum _ _ _ hbody =>
    cases hbody with
    | product _ hrow =>
      cases hrow (List.mem_cons_of_mem _ List.mem_cons_self) with
      | symbol hk =>
        rcases hk with ⟨-, hkj⟩ | ⟨hkk, -⟩
        · exact absurd hkj (by decide)
        · exact hkk rfl

end Formula.Value
