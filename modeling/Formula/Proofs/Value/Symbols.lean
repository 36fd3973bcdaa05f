import Formula.Proofs.Value.Normal

/-!
# The symbols that values use

A symbol is free in a value, or stands in the definition of a function in it. `Uses` bounds both kinds: the free
symbols, and the symbols that definitions use beside their parameters. Substitution does not reach into definitions, so
that the second kind is kept apart from the first.

Every operation on values uses no symbols but those of its operands. A binder takes its own variable away, also where
it is dropped: a limit is left out only if its variable does not occur, and a range is folded by putting numbers in the
place of the variable (`Uses.limitOf`, `Uses.big`). What stands for the replaced symbols after a substitution are the
symbols of their replacements (`uses_replaceWith`), so that a call uses no symbols but those of its arguments and
those that the definition leaves free (`Uses.call`).
-/

namespace Formula

/-- The definitions that a function is put together from, with their parameters. -/
def Callable.definitions {α : Type} : Callable α → List (List α × α)
  | builtin .. => []
  | defined _ params body => [(params, body)]
  | composed outer inner => outer.definitions ++ inner.definitions

namespace Value

/-- The free symbols of a definition are parameters of it or allowed. -/
def Covered (allowed : String → Prop) (d : List Value × Value) : Prop :=
  ∀ s, d.2.containsSymbol s = true → .symbol s ∈ d.1 ∨ allowed s

/-- Every definition in the value is covered. -/
inductive Binds (allowed : String → Prop) : Value → Prop where
  | intro {v : Value} (hv : ∀ f, v = .function f → ∀ d ∈ f.definitions, Covered allowed d)
      (h : ∀ w ∈ v.parts, Binds allowed w) : Binds allowed v

/-- The free symbols of the value are among the first names, and what its definitions use beside their parameters is
among the second. -/
structure Uses (free allowed : String → Prop) (v : Value) : Prop where
  symbols : ∀ s, v.containsSymbol s = true → free s
  binds : v.Binds allowed

variable {free free' allowed allowed' : String → Prop} {a b c v : Value} {vs : List Value}

/-! ## Free symbols of nodes -/

theorem listContainsSymbol_eq_true {s : String} :
    listContainsSymbol s vs = true ↔ ∃ v ∈ vs, v.containsSymbol s = true := by
  induction vs with
  | nil => simp [listContainsSymbol]
  | cons v vs ih => simp [listContainsSymbol, ih]

namespace Binds

theorem part (h : v.Binds allowed) {w : Value} (hw : w ∈ v.parts) : w.Binds allowed := by
  cases h with
  | intro _ h => exact h w hw

theorem first {ws : List Value} (h : v.Binds allowed) (hv : v.parts = a :: ws) : a.Binds allowed :=
  h.part (hv ▸ List.mem_cons_self)

theorem second {ws : List Value} (h : v.Binds allowed) (hv : v.parts = a :: b :: ws) : b.Binds allowed :=
  h.part (hv ▸ List.mem_cons_of_mem _ List.mem_cons_self)

theorem third {ws : List Value} (h : v.Binds allowed) (hv : v.parts = a :: b :: c :: ws) : c.Binds allowed :=
  h.part (hv ▸ List.mem_cons_of_mem _ (List.mem_cons_of_mem _ List.mem_cons_self))

theorem covered {f : Function} (h : (Value.function f).Binds allowed) : ∀ d ∈ f.definitions, Covered allowed d := by
  cases h with
  | intro hv _ => exact hv f rfl

/-- A composition is put together from the definitions of both functions. -/
theorem composed_iff {f g : Function} : (Value.function (.composed f g)).Binds allowed ↔
    (Value.function f).Binds allowed ∧ (Value.function g).Binds allowed := by
  constructor
  · intro h
    have hd := List.forall_mem_append.mp h.covered
    have hp := List.forall_mem_append.mp fun w hw => h.part (w := w) hw
    exact ⟨.intro (by rintro _ ⟨⟩; exact hd.1) hp.1, .intro (by rintro _ ⟨⟩; exact hd.2) hp.2⟩
  · rintro ⟨hf, hg⟩
    refine .intro ?_ (List.forall_mem_append.mpr ⟨fun _ => hf.part, fun _ => hg.part⟩)
    rintro _ ⟨⟩
    exact List.forall_mem_append.mpr ⟨hf.covered, hg.covered⟩

/-- A value that is no function has only the definitions of its parts. -/
theorem of_parts (hv : ∀ f, v ≠ .function f) (h : ∀ w ∈ v.parts, w.Binds allowed) : v.Binds allowed :=
  .intro (fun f hf => absurd hf (hv f)) h

theorem mono (hallowed : ∀ s, allowed s → allowed' s) (h : v.Binds allowed) : v.Binds allowed' := by
  induction h with
  | intro hv _ ih =>
    exact .intro (fun f hf d hd s hs => (hv f hf d hd s hs).imp_right (hallowed s)) ih

end Binds

namespace Uses

theorem mono (hfree : ∀ s, free s → free' s) (hallowed : ∀ s, allowed s → allowed' s) (h : v.Uses free allowed) :
    v.Uses free' allowed' :=
  ⟨fun s hs => hfree s (h.symbols s hs), h.binds.mono hallowed⟩

/-- A value without parts uses nothing. -/
theorem of_leaf (hsymbols : ∀ s, v.containsSymbol s = false) (hv : ∀ f, v ≠ .function f) (hparts : v.parts = []) :
    v.Uses free allowed where
  symbols s hs := absurd hs (by rw [hsymbols]; exact Bool.false_ne_true)
  binds := .of_parts hv (by rw [hparts]; exact fun _ h => nomatch h)

theorem number (n : Number) : (Value.number n).Uses free allowed := .of_leaf (fun _ => rfl) (fun _ => nofun) rfl

theorem constant (c : Constant) : (Value.constant c).Uses free allowed := .of_leaf (fun _ => rfl) (fun _ => nofun) rfl

theorem bool (b : Bool) : (Value.bool b).Uses free allowed := .of_leaf (fun _ => rfl) (fun _ => nofun) rfl

theorem set (s : NumberSet) : (Value.set s).Uses free allowed := .of_leaf (fun _ => rfl) (fun _ => nofun) rfl

theorem symbol {name : String} (h : free name) : (Value.symbol name).Uses free allowed where
  symbols s hs := by
    have hs : (name == s) = true := hs
    exact eq_of_beq hs ▸ h
  binds := .of_parts (fun _ => nofun) fun _ h => nomatch h

/-- A function has no free symbols, only definitions. -/
theorem function {f : Function} (h : (Value.function f).Binds allowed) : (Value.function f).Uses free allowed :=
  ⟨fun _ hs => Bool.noConfusion hs, h⟩

/-- A node that binds nothing and is no function uses what its parts use. -/
theorem of_parts (hsymbols : ∀ s, v.containsSymbol s = true → ∃ w ∈ v.parts, w.containsSymbol s = true)
    (hv : ∀ f, v ≠ .function f) (h : ∀ w ∈ v.parts, w.Uses free allowed) : v.Uses free allowed where
  symbols s hs := by
    obtain ⟨w, hw, hs⟩ := hsymbols s hs
    exact (h w hw).symbols s hs
  binds := .of_parts hv fun w hw => (h w hw).binds

theorem sum (h : ∀ w ∈ vs, w.Uses free allowed) : (Value.sum vs).Uses free allowed :=
  .of_parts (fun _ => listContainsSymbol_eq_true.mp) (fun _ => nofun) h

theorem product (h : ∀ w ∈ vs, w.Uses free allowed) : (Value.product vs).Uses free allowed :=
  .of_parts (fun _ => listContainsSymbol_eq_true.mp) (fun _ => nofun) h

theorem application (name : String) (h : ∀ w ∈ vs, w.Uses free allowed) :
    (Value.application name vs).Uses free allowed :=
  .of_parts (fun _ => listContainsSymbol_eq_true.mp) (fun _ => nofun) h

section

variable (ha : a.Uses free allowed) (hb : b.Uses free allowed)

include ha

theorem of_one (hsymbols : ∀ s, v.containsSymbol s = a.containsSymbol s) (hv : ∀ f, v ≠ .function f)
    (hparts : v.parts = [a]) : v.Uses free allowed :=
  ⟨fun s hs => ha.symbols s (hsymbols s ▸ hs), .of_parts hv (hparts ▸ List.forall_mem_singleton.mpr ha.binds)⟩

theorem factorial : (Value.factorial a).Uses free allowed := ha.of_one (fun _ => rfl) (fun _ => nofun) rfl

theorem absolute : (Value.absolute a).Uses free allowed := ha.of_one (fun _ => rfl) (fun _ => nofun) rfl

include hb

theorem of_two (hsymbols : ∀ s, v.containsSymbol s = (a.containsSymbol s || b.containsSymbol s))
    (hv : ∀ f, v ≠ .function f) (hparts : v.parts = [a, b]) : v.Uses free allowed where
  symbols s hs := by
    rw [hsymbols, Bool.or_eq_true] at hs
    exact hs.elim (ha.symbols s) (hb.symbols s)
  binds := .of_parts hv (hparts ▸ List.forall_mem_cons.mpr ⟨ha.binds, List.forall_mem_singleton.mpr hb.binds⟩)

theorem power : (Value.power a b).Uses free allowed := ha.of_two hb (fun _ => rfl) (fun _ => nofun) rfl

theorem remainder : (Value.remainder a b).Uses free allowed := ha.of_two hb (fun _ => rfl) (fun _ => nofun) rfl

theorem relation (op : Relation) : (Value.relation op a b).Uses free allowed :=
  ha.of_two hb (fun _ => rfl) (fun _ => nofun) rfl

theorem interval (leftOpen rightOpen : Bool) : (Value.interval a b leftOpen rightOpen).Uses free allowed :=
  ha.of_two hb (fun _ => rfl) (fun _ => nofun) rfl

theorem intersection : (Value.intersection a b).Uses free allowed := ha.of_two hb (fun _ => rfl) (fun _ => nofun) rfl

end

end Uses

/-- The names with one more, which a binder takes away again. -/
def orIs (free : String → Prop) (var : String) (s : String) : Prop := free s ∨ s = var

theorem orIs_left {var s : String} (h : free s) : orIs free var s := .inl h

theorem Uses.under (h : v.Uses free allowed) (var : String) : v.Uses (orIs free var) allowed :=
  h.mono (fun _ => orIs_left) fun _ => id

theorem Uses.limit {var : String} (ha : a.Uses free allowed) (hb : b.Uses (orIs free var) allowed) :
    (Value.limit var a b).Uses free allowed where
  symbols s hs := by
    have hs : (a.containsSymbol s || (var != s && b.containsSymbol s)) = true := hs
    simp only [Bool.or_eq_true, Bool.and_eq_true, bne_iff_ne] at hs
    rcases hs with hs | ⟨hne, hs⟩
    · exact ha.symbols s hs
    · exact (hb.symbols s hs).resolve_right fun h => hne h.symm
  binds := .of_parts (fun _ => nofun) (List.forall_mem_cons.mpr ⟨ha.binds, List.forall_mem_singleton.mpr hb.binds⟩)

theorem Uses.node {op : BigOperator} {var : String} (ha : a.Uses free allowed) (hb : b.Uses free allowed)
    (hc : c.Uses (orIs free var) allowed) : (op.node var a b c).Uses free allowed := by
  have hsymbols : ∀ s, (op.node var a b c).containsSymbol s = true → free s := by
    intro s hs
    have hs : (a.containsSymbol s || b.containsSymbol s || (var != s && c.containsSymbol s)) = true := by
      cases op <;> exact hs
    simp only [Bool.or_eq_true, Bool.and_eq_true, bne_iff_ne] at hs
    rcases hs with (hs | hs) | ⟨hne, hs⟩
    · exact ha.symbols s hs
    · exact hb.symbols s hs
    · exact (hc.symbols s hs).resolve_right fun h => hne h.symm
  have hparts : ∀ w ∈ [a, b, c], w.Binds allowed :=
    List.forall_mem_cons.mpr ⟨ha.binds, List.forall_mem_cons.mpr ⟨hb.binds, List.forall_mem_singleton.mpr hc.binds⟩⟩
  exact ⟨hsymbols, by cases op <;> exact .of_parts (fun _ => nofun) hparts⟩

/-! ## Operations -/

theorem uses_collect {wrap : List Value → Value} (hwrap : ∀ {ws : List Value}, (∀ w ∈ ws, w.Uses free allowed) →
    (wrap ws).Uses free allowed) (h : ∀ w ∈ vs, w.Uses free allowed) : (collect wrap vs).Uses free allowed := by
  unfold collect
  split
  · exact h _ List.mem_cons_self
  · exact hwrap h

theorem uses_symbolic (h : ∀ w ∈ vs, w.Uses free allowed) : ∀ w ∈ symbolic vs, w.Uses free allowed :=
  fun w hw => h w (mem_symbolic.mp hw).1

namespace Uses

theorem terms (h : v.Uses free allowed) : ∀ t ∈ v.terms, t.Uses free allowed := by
  unfold Value.terms
  split
  · exact fun t ht => ⟨fun s hs => h.symbols s (listContainsSymbol_eq_true.mpr ⟨t, ht, hs⟩), h.binds.part ht⟩
  · exact List.forall_mem_singleton.mpr h

theorem factors (h : v.Uses free allowed) : ∀ f ∈ v.factors, f.Uses free allowed := by
  unfold Value.factors
  split
  · exact fun t ht => ⟨fun s hs => h.symbols s (listContainsSymbol_eq_true.mpr ⟨t, ht, hs⟩), h.binds.part ht⟩
  · exact List.forall_mem_singleton.mpr h

theorem ofTerms (h : ∀ w ∈ vs, w.Uses free allowed) : (ofTerms vs).Uses free allowed := by
  unfold Value.ofTerms
  refine uses_collect sum ?_
  split
  · exact uses_symbolic h
  · exact List.forall_mem_append.mpr ⟨uses_symbolic h, List.forall_mem_singleton.mpr (number _)⟩

theorem ofFactors (h : ∀ w ∈ vs, w.Uses free allowed) : (ofFactors vs).Uses free allowed := by
  unfold Value.ofFactors
  dsimp only
  split
  · exact number _
  · refine uses_collect product ?_
    split
    · exact uses_symbolic h
    · exact List.forall_mem_cons.mpr ⟨number _, uses_symbolic h⟩

section

variable (ha : a.Uses free allowed) (hb : b.Uses free allowed)

include ha

theorem fact : a.fact.Uses free allowed := by
  unfold Value.fact
  split
  · split
    · exact number _
    · split
      · exact constant _
      · exact ha.factorial
  · exact ha.factorial

theorem abs : a.abs.Uses free allowed := by
  unfold Value.abs
  split
  · exact number _
  · exact ha
  · exact ha.absolute

theorem neg : a.neg.Uses free allowed :=
  .ofFactors (List.forall_mem_append.mpr ⟨(number _).factors, ha.factors⟩)

include hb

theorem add : (add a b).Uses free allowed := .ofTerms (List.forall_mem_append.mpr ⟨ha.terms, hb.terms⟩)

theorem mul : (mul a b).Uses free allowed := .ofFactors (List.forall_mem_append.mpr ⟨ha.factors, hb.factors⟩)

theorem pow : (pow a b).Uses free allowed := by
  unfold Value.pow
  dsimp only
  split
  · rename_i w hw
    obtain ⟨e, -, hw⟩ := Option.bind_eq_some_iff.mp hw
    split at hw
    · cases hw
      exact number _
    split at hw
    · cases hw
      exact ha
    obtain ⟨n, -, hw⟩ := Option.bind_eq_some_iff.mp hw
    split at hw
    · cases hw
      exact number _
    · obtain ⟨-, hw⟩ := Option.ite_none_right_eq_some.mp hw
      cases hw
      exact constant _
  · split
    · exact number _
    · exact ha.power hb

theorem div : (div a b).Uses free allowed := by
  unfold Value.div
  split
  · exact ha.mul (hb.pow (number _))
  · split
    · exact constant _
    · split
      · exact number _
      · exact constant _
    · exact ha.mul (number _)

theorem mod : (mod a b).Uses free allowed := by
  unfold Value.mod
  dsimp only
  split
  · exact number _
  · exact ha.remainder hb

theorem relate (op : Relation) : (relate op a b).Uses free allowed := by
  unfold Value.relate
  split
  · exact bool _
  · exact ha.relation hb op

theorem between (leftOpen rightOpen : Bool) : (between a b leftOpen rightOpen).Uses free allowed :=
  ha.interval hb _ _

theorem restrict : (restrict a b).Uses free allowed := by
  unfold Value.restrict
  split
  · exact hb
  · exact hb
  · exact ha.intersection hb

end

theorem apply (name : String) {args : List Value} (h : ∀ v ∈ args, v.Uses free allowed) :
    (apply name args).Uses free allowed := by
  unfold Value.apply
  dsimp only
  split
  · exact (h _ List.mem_cons_self).abs
  · exact application name h
  · split
    · exact number _
    · exact application name h

/-- A limit that is dropped has no occurrence of its variable to leave behind. -/
theorem limitOf {var : String} (ha : a.Uses free allowed) (hb : b.Uses (orIs free var) allowed) :
    (limitOf var a b).Uses free allowed := by
  unfold Value.limitOf
  split
  · exact ha.limit hb
  · rename_i hvar
    refine ⟨fun s hs => (hb.symbols s hs).resolve_right ?_, hb.binds⟩
    rintro rfl
    exact hvar hs

end Uses

/-! ## Substitution and big operators -/

/-- The way of folding takes the variable of an operator away, and uses nothing else. -/
def Folding.Uses (fold : Folding) (allowed : String → Prop) : Prop :=
  ∀ {free : String → Prop} {op var a b c}, a.Uses free allowed → b.Uses free allowed → c.Uses (orIs free var) allowed →
    (fold op var a b c).Uses free allowed

/-- A symbol is among the names, or is replaced. -/
def Remains (free : String → Prop) (pairs : List (Value × Value)) (s : String) : Prop :=
  free s ∨ ∃ p ∈ pairs, p.1 = .symbol s

theorem uses_foldl {op : Value → Value → Value}
    (hop : ∀ {a b}, a.Uses free allowed → b.Uses free allowed → (op a b).Uses free allowed) {α : Type} {f : α → Value}
    {xs : List α} (h : ∀ x ∈ xs, (f x).Uses free allowed) (ha : a.Uses free allowed) :
    (xs.foldl (fun acc x => op acc (f x)) a).Uses free allowed := by
  induction xs generalizing a with
  | nil => exact ha
  | cons x xs ih =>
    exact ih (fun x hx => h x (List.mem_cons_of_mem _ hx)) (hop ha (h x List.mem_cons_self))

theorem uses_replacement? {pairs : List (Value × Value)} (hpairs : ∀ p ∈ pairs, p.2.Uses free allowed) {w : Value}
    (h : replacement? pairs v = some w) : w.Uses free allowed := by
  obtain ⟨p, hp, rfl⟩ := Option.map_eq_some_iff.mp h
  exact hpairs p (List.mem_of_find?_eq_some hp)

/-- A symbol that is not replaced is no target. -/
theorem not_mem_of_replacement?_eq_none {pairs : List (Value × Value)} {s : String}
    (h : replacement? pairs (.symbol s) = none) : ∀ p ∈ pairs, p.1 ≠ .symbol s := by
  intro p hp heq
  have hnone := List.find?_eq_none.mp (Option.map_eq_none_iff.mp h) p hp
  rw [heq] at hnone
  exact hnone (beq_self_eq_true s)

/-- Under a binder the variable is among the names, and what else is replaced still is. -/
theorem Remains.under {pairs : List (Value × Value)} {var s : String} (h : s ≠ var → Remains free pairs s) :
    Remains (orIs free var) (withoutSymbol var pairs) s := by
  by_cases hvar : s = var
  · exact .inl (.inr hvar)
  · rcases h hvar with h | ⟨p, hp, heq⟩
    · exact .inl (.inl h)
    · refine .inr ⟨p, List.mem_filter.mpr ⟨hp, ?_⟩, heq⟩
      obtain ⟨_, _⟩ := p
      subst heq
      simpa using hvar

theorem symbols_of_pair (h : ∀ s, (a.containsSymbol s || b.containsSymbol s) = true → free s) :
    (∀ s, a.containsSymbol s = true → free s) ∧ ∀ s, b.containsSymbol s = true → free s :=
  ⟨fun s hs => h s (by rw [hs, Bool.true_or]), fun s hs => h s (by rw [hs, Bool.or_true])⟩

/-- Where a variable is bound, everything else in the body is outside of the binder as well. -/
theorem remains_of_binder {pairs : List (Value × Value)} {outer : String → Bool} {var : String}
    (h : ∀ s, (outer s || (var != s && b.containsSymbol s)) = true → Remains free pairs s) :
    (∀ s, outer s = true → Remains free pairs s) ∧
      ∀ s, b.containsSymbol s = true → Remains (orIs free var) (withoutSymbol var pairs) s := by
  refine ⟨fun s hs => h s (by rw [hs, Bool.true_or]), fun s hs => .under fun hne => h s ?_⟩
  rw [hs, Bool.and_true, bne_iff_ne.mpr (Ne.symm hne), Bool.or_true]

theorem uses_withoutSymbol {pairs : List (Value × Value)} (hpairs : ∀ p ∈ pairs, p.2.Uses free allowed)
    (var : String) : ∀ p ∈ withoutSymbol var pairs, p.2.Uses (orIs free var) allowed :=
  fun p hp => (hpairs p (List.mem_of_mem_filter hp)).under var

section

variable {fold : Folding}

mutual

/-- What remains of the symbols of a value, and what their replacements use, is all that the result uses. -/
theorem uses_replaceWith (hfold : fold.Uses allowed) {free : String → Prop}
    {pairs : List (Value × Value)} (hpairs : ∀ p ∈ pairs, p.2.Uses free allowed) :
    (v : Value) → (∀ s, v.containsSymbol s = true → Remains free pairs s) → v.Binds allowed →
      (replaceWith fold pairs v).Uses free allowed := by
  intro v hv hb
  unfold replaceWith
  cases hr : replacement? pairs v with
  | some w => exact uses_replacement? hpairs hr
  | none =>
    dsimp only
    match v, hv, hb with
    | .number _, _, _ => exact .number _
    | .bool _, _, _ => exact .bool _
    | .constant _, _, _ => exact .constant _
    | .set _, _, _ => exact .set _
    | .function _, _, hb => exact .function hb
    | .symbol s, hv, _ =>
      refine .symbol ((hv s (beq_self_eq_true s)).resolve_right ?_)
      rintro ⟨p, hp, heq⟩
      exact not_mem_of_replacement?_eq_none hr p hp heq
    | .sum ts, hv, hb =>
      have hts := uses_replaceList hfold hpairs ts hv fun _ => hb.part
      exact uses_foldl (f := id) Uses.add hts (.number _)
    | .product fs, hv, hb =>
      have hfs := uses_replaceList hfold hpairs fs hv fun _ => hb.part
      exact uses_foldl (f := id) Uses.mul hfs (.number _)
    | .application name args, hv, hb => exact .apply name (uses_replaceList hfold hpairs args hv fun _ => hb.part)
    | .factorial a, hv, hb => exact (uses_replaceWith hfold hpairs a hv (hb.part List.mem_cons_self)).fact
    | .absolute a, hv, hb => exact (uses_replaceWith hfold hpairs a hv (hb.part List.mem_cons_self)).abs
    | .power a b, hv, hb =>
      have ha := uses_replaceWith hfold hpairs a (symbols_of_pair hv).1 (hb.first rfl)
      exact ha.pow (uses_replaceWith hfold hpairs b (symbols_of_pair hv).2 (hb.second rfl))
    | .remainder a b, hv, hb =>
      have ha := uses_replaceWith hfold hpairs a (symbols_of_pair hv).1 (hb.first rfl)
      exact ha.mod (uses_replaceWith hfold hpairs b (symbols_of_pair hv).2 (hb.second rfl))
    | .relation op a b, hv, hb =>
      have ha := uses_replaceWith hfold hpairs a (symbols_of_pair hv).1 (hb.first rfl)
      exact ha.relate (uses_replaceWith hfold hpairs b (symbols_of_pair hv).2 (hb.second rfl)) op
    | .interval a b l r, hv, hb =>
      have ha := uses_replaceWith hfold hpairs a (symbols_of_pair hv).1 (hb.first rfl)
      exact ha.between (uses_replaceWith hfold hpairs b (symbols_of_pair hv).2 (hb.second rfl)) l r
    | .intersection a b, hv, hb =>
      have ha := uses_replaceWith hfold hpairs a (symbols_of_pair hv).1 (hb.first rfl)
      exact ha.restrict (uses_replaceWith hfold hpairs b (symbols_of_pair hv).2 (hb.second rfl))
    | .limit var a b, hv, hb =>
      obtain ⟨hva, hvb⟩ := remains_of_binder hv
      have ha := uses_replaceWith hfold hpairs a hva (hb.first rfl)
      exact ha.limitOf (uses_replaceWith hfold (uses_withoutSymbol hpairs var) b hvb (hb.second rfl))
    | .bigSum var a b c, hv, hb | .bigProduct var a b c, hv, hb =>
      obtain ⟨hvab, hvc⟩ := remains_of_binder hv
      have ha := uses_replaceWith hfold hpairs a (symbols_of_pair hvab).1 (hb.first rfl)
      have hb' := uses_replaceWith hfold hpairs b (symbols_of_pair hvab).2 (hb.second rfl)
      exact hfold ha hb' (uses_replaceWith hfold (uses_withoutSymbol hpairs var) c hvc (hb.third rfl))

theorem uses_replaceList (hfold : fold.Uses allowed) {free : String → Prop}
    {pairs : List (Value × Value)} (hpairs : ∀ p ∈ pairs, p.2.Uses free allowed) :
    (vs : List Value) → (∀ s, listContainsSymbol s vs = true → Remains free pairs s) → (∀ v ∈ vs, v.Binds allowed) →
      ∀ w ∈ replaceList fold pairs vs, w.Uses free allowed
  | [], _, _ => by simp [replaceList]
  | v :: vs, hv, hb => by
    rw [replaceList]
    refine List.forall_mem_cons.mpr ⟨uses_replaceWith hfold hpairs v (fun s hs => hv s ?_) (hb v List.mem_cons_self),
      uses_replaceList hfold hpairs vs (fun s hs => hv s ?_) fun w hw => hb w (List.mem_cons_of_mem _ hw)⟩
    · rw [listContainsSymbol, hs, Bool.true_or]
    · rw [listContainsSymbol, hs, Bool.or_true]

end

end

theorem Uses.combine {op : BigOperator} (ha : a.Uses free allowed) (hb : b.Uses free allowed) :
    (op.combine a b).Uses free allowed := by
  cases op
  · exact ha.add hb
  · exact ha.mul hb

/-- The body over a range is taken at numbers, however deep it is folded, so that the variable is gone. -/
theorem uses_foldAt (depth : Nat) : Folding.Uses (foldAt depth) allowed := by
  induction depth with
  | zero =>
    intro free op var a b c ha hb hc
    exact ha.node hb hc
  | succ depth ih =>
    intro free op var a b c ha hb hc
    unfold foldAt
    cases range? a b with
    | none => exact ha.node hb hc
    | some ks =>
      refine uses_foldl Uses.combine (fun k _ => ?_) (by cases op <;> exact .number _)
      refine uses_replaceWith ih (List.forall_mem_singleton.mpr (.number _)) c (fun s hs => ?_) hc.binds
      exact (hc.symbols s hs).imp_right fun hvar => ⟨_, List.mem_singleton_self _, by rw [hvar]⟩

theorem Uses.big (op : BigOperator) {var : String} (ha : a.Uses free allowed) (hb : b.Uses free allowed)
    (hc : c.Uses (orIs free var) allowed) : (big op var a b c).Uses free allowed := uses_foldAt _ ha hb hc

theorem uses_replaceAll {pairs : List (Value × Value)} (hpairs : ∀ p ∈ pairs, p.2.Uses free allowed)
    (hv : ∀ s, v.containsSymbol s = true → Remains free pairs s) (hb : v.Binds allowed) :
    (v.replaceAll pairs).Uses free allowed :=
  uses_replaceWith (fun ha hb hc => ha.big _ hb hc) hpairs v hv hb

end Value

/-! ## Calls -/

namespace Callable

/-- Every parameter of a definition has an argument. -/
theorem exists_mem_zip {params args : List Value} (h : params.length = args.length) {p : Value} (hp : p ∈ params) :
    ∃ a, (p, a) ∈ params.zip args := by
  rw [← List.map_fst_zip h.le, List.mem_map] at hp
  obtain ⟨⟨_, a⟩, hmem, rfl⟩ := hp
  exact ⟨a, hmem⟩

theorem length_eq_of_checkArity {name : String} {params : List Value} {body : Value} {count : Nat} {u : Unit}
    (h : checkArity (.defined name params body) count = .ok u) : params.length = count := by
  unfold checkArity at h
  split at h
  · rename_i hc
    have hc := (Bool.and_eq_true _ _).mp hc
    exact Nat.le_antisymm (of_decide_eq_true hc.1) (of_decide_eq_true hc.2)
  · cases h

open Value in
/-- A call uses what its arguments use and what the definition leaves free. -/
theorem uses_call {free allowed : String → Prop} (hallowed : ∀ s, allowed s → free s) {f : Function}
    (hf : (Value.function f).Binds allowed) {args : List Value} (hargs : ∀ a ∈ args, a.Uses free allowed) {v : Value}
    (h : f.call args = .ok v) : v.Uses free allowed := by
  induction f generalizing args v with
  | builtin name =>
    obtain ⟨⟨⟩, -, h⟩ := LR.Grammar.bind_eq_ok h
    cases h
    exact .apply name hargs
  | defined name params body =>
    obtain ⟨u, harity, h⟩ := LR.Grammar.bind_eq_ok h
    cases h
    refine uses_replaceAll (fun p hp => hargs p.2 (List.of_mem_zip hp).2) (fun s hs => ?_) (hf.part List.mem_cons_self)
    rcases hf.covered _ List.mem_cons_self s hs with hmem | hs
    · obtain ⟨a, ha⟩ := exists_mem_zip (length_eq_of_checkArity harity) hmem
      exact .inr ⟨_, ha, rfl⟩
    · exact .inl (hallowed s hs)
  | composed outer inner ihouter ihinner =>
    obtain ⟨⟨⟩, -, h⟩ := LR.Grammar.bind_eq_ok h
    obtain ⟨w, hw, h⟩ := LR.Grammar.bind_eq_ok h
    obtain ⟨houter, hinner⟩ := Binds.composed_iff.mp hf
    exact ihouter houter (List.forall_mem_singleton.mpr (ihinner hinner hargs hw)) h

end Callable

end Formula
