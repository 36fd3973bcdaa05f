import Formula.Proofs.Expr.Symbols

/-!
# Free symbols by their occurrences

`FreeAt` says where a name is free: at a path through the branches of a tree that ends at a variable of that name and
meets no binder of it. Paths are compared from the top, so that the smaller one is read first.

The free symbols are collected under one stack of bound names for the whole tree, which every binder extends and cuts
back (`walk`). The stack is the same behind a tree as before it, so the walk finds what `collectFree` does
(`walk_eq`). By induction on the tree, what is found behind the names that are known already are the names that occur
free, each once and in the order of their first occurrences (`gathers_collectFree`); for the whole tree that is
`freeSymbols_occurrences`.
-/

namespace Formula.Expr

/-! ## Occurrences -/

/-- The trees below a tree in the order in which they are read, each with the names that are bound in it. The parameters
of a definition are not among them. -/
def branches : Expr → List (List String × Expr)
  | .number .. | .variable _ | .constant .. | .function _ => []
  | .pos a | .neg a | .factorial a _ | .absolute a | .setInterval _ a | .truth a => [([], a)]
  | .binary _ a b | .power a b _ | .compose a b | .relation _ a b | .interval _ a b _ => [([], a), ([], b)]
  | .definition _ params body => [(params.filterMap name?, body)]
  | .call _ args => args.map fun a => ([], a)
  | .limit target approach body => [([], approach), ([target], body)]
  | .big _ var lower upper body => [([], lower), ([], upper), ([var], body)]

/-- A variable of the name stands at the path, and no branch on the way to it binds the name. -/
inductive FreeAt (name : String) : Expr → List Nat → Prop
  | leaf : FreeAt name (.variable name) []
  | branch {e a : Expr} {i : Nat} {names : List String} {path : List Nat} (h : e.branches[i]? = some (names, a))
      (unbound : name ∉ names) (inside : FreeAt name a path) : FreeAt name e (i :: path)

theorem sizeOf_lt_of_mem_branches {e a : Expr} {names : List String} (h : (names, a) ∈ e.branches) :
    sizeOf a < sizeOf e := by
  cases e
  case call f args =>
    obtain ⟨b, hb, heq⟩ := List.mem_map.mp h
    cases heq
    have := List.sizeOf_lt_of_mem hb
    simp only [call.sizeOf_spec]
    omega
  all_goals grind [branches]

theorem freeAt_variable {name v : String} {path : List Nat} :
    FreeAt name (.variable v) path ↔ v = name ∧ path = [] := by
  constructor
  · rintro (_ | ⟨h, -, -⟩)
    · exact ⟨rfl, rfl⟩
    · cases h
  · rintro ⟨rfl, rfl⟩
    exact .leaf

/-- In every other tree a name is free where it is free in a branch that does not bind it. -/
theorem freeAt_iff {e : Expr} (he : ∀ v, e ≠ .variable v) {name : String} {path : List Nat} :
    FreeAt name e path ↔
      ∃ i names a inner, path = i :: inner ∧ e.branches[i]? = some (names, a) ∧ name ∉ names ∧ FreeAt name a inner := by
  constructor
  · rintro (_ | ⟨h, unbound, inside⟩)
    · exact absurd rfl (he _)
    · exact ⟨_, _, _, _, rfl, h, unbound, inside⟩
  · rintro ⟨i, names, a, inner, rfl, h, unbound, inside⟩
    exact .branch h unbound inside

/-! ## Collecting by branches -/

theorem collectFreeList_eq_foldl {bound : List String} :
    (es : List Expr) → (found : List String) →
      collectFreeList bound found es = es.foldl (collectFree bound) found
  | [], _ => rfl
  | e :: es, found => collectFreeList_eq_foldl es (collectFree bound found e)

/-- All trees but variables are collected branch by branch. -/
theorem collectFree_eq_foldl {e : Expr} (he : ∀ v, e ≠ .variable v) (bound found : List String) :
    collectFree bound found e = e.branches.foldl (fun found b => collectFree (b.1 ++ bound) found b.2) found := by
  cases e
  case «variable» v => exact absurd rfl (he v)
  case call f args =>
    rw [collectFree, collectFreeList_eq_foldl, branches, List.foldl_map]
    rfl
  all_goals rfl

/-! ## The order of first occurrences -/

/-- Behind the names found before, a list holds the other names with an occurrence, each once; and of two of them the
one that stands first has an occurrence before all those of the other. -/
def Gathers (occurs : String → List Nat → Prop) (found result : List String) : Prop :=
  ∃ new, result = found ++ new ∧ new.Nodup ∧ (∀ name, name ∈ new ↔ name ∉ found ∧ ∃ p, occurs name p) ∧
    new.Pairwise fun a b => ∃ p, occurs a p ∧ ∀ q, occurs b q → p < q

namespace Gathers

variable {occurs first second : String → List Nat → Prop} {found middle result : List String}

/-- Nothing is added if all names that occur were found before. -/
theorem known (h : ∀ name p, occurs name p → name ∈ found) : Gathers occurs found found := by
  refine ⟨[], (List.append_nil _).symm, .nil, fun name => ⟨nofun, ?_⟩, .nil⟩
  rintro ⟨hnew, p, hp⟩
  exact absurd (h name p hp) hnew

theorem congr (h : ∀ name p, occurs name p ↔ first name p) (hf : Gathers first found result) :
    Gathers occurs found result := by
  have : occurs = first := funext fun name => funext fun p => propext (h name p)
  exact this ▸ hf

theorem mem_iff (h : Gathers occurs found result) {name : String} :
    name ∈ result ↔ name ∈ found ∨ ∃ p, occurs name p := by
  obtain ⟨new, rfl, -, hnew, -⟩ := h
  rw [List.mem_append, hnew]
  tauto

/-- The same occurrences at the end of a longer way are gathered alike. -/
theorem under (k : Nat) (h : Gathers occurs found result) :
    Gathers (fun name p => ∃ inner, p = k :: inner ∧ occurs name inner) found result := by
  obtain ⟨new, hresult, hnodup, hnew, hpairs⟩ := h
  refine ⟨new, hresult, hnodup, fun name => ?_, hpairs.imp fun {a b} ⟨p, hp, hall⟩ => ⟨k :: p, ⟨p, rfl, hp⟩, ?_⟩⟩
  · rw [hnew]
    refine and_congr_right fun _ => ⟨?_, ?_⟩
    · rintro ⟨p, hp⟩
      exact ⟨_, p, rfl, hp⟩
    · rintro ⟨_, p, rfl, hp⟩
      exact ⟨p, hp⟩
  · rintro _ ⟨q, rfl, hq⟩
    exact List.cons_lt_cons_iff.mpr (.inr ⟨rfl, hall q hq⟩)

/-- Two sets of occurrences are gathered one after the other if all of the first are read before all of the second. -/
theorem append (hf : Gathers first found middle) (hs : Gathers second middle result)
    (hbefore : ∀ a b p q, first a p → second b q → p < q) :
    Gathers (fun name p => first name p ∨ second name p) found result := by
  have hmem : ∀ name, name ∈ middle ↔ name ∈ found ∨ ∃ p, first name p := fun _ => hf.mem_iff
  obtain ⟨new, hmiddle, hnodup, hnew, hpairs⟩ := hf
  obtain ⟨rest, hresult, hnodup', hrest, hpairs'⟩ := hs
  -- A name of the second part has no occurrence in the first, or it would have been found there.
  have hlate : ∀ b ∈ rest, ∀ q, ¬ first b q := fun b hb q hq => ((hrest b).mp hb).1 ((hmem b).mpr (.inr ⟨q, hq⟩))
  refine ⟨new ++ rest, by rw [hresult, hmiddle, List.append_assoc], ?_, fun name => ?_, ?_⟩
  · refine List.nodup_append.mpr ⟨hnodup, hnodup', ?_⟩
    rintro a ha _ hb rfl
    obtain ⟨p, hp⟩ := ((hnew a).mp ha).2
    exact hlate a hb p hp
  · rw [List.mem_append, hnew, hrest, hmem]
    grind
  · refine List.pairwise_append.mpr ⟨?_, ?_, fun a ha b hb => ?_⟩
    · refine hpairs.imp fun {a b} ⟨p, hp, hall⟩ => ⟨p, .inl hp, ?_⟩
      rintro q (hq | hq)
      · exact hall q hq
      · exact hbefore a b p q hp hq
    · refine hpairs'.imp_of_mem fun {a b} _ hb ⟨p, hp, hall⟩ => ⟨p, .inr hp, ?_⟩
      rintro q (hq | hq)
      · exact absurd hq (hlate b hb q)
      · exact hall q hq
    · obtain ⟨p, hp⟩ := ((hnew a).mp ha).2
      refine ⟨p, .inl hp, ?_⟩
      rintro q (hq | hq)
      · exact absurd hq (hlate b hb q)
      · exact hbefore a b p q hp hq

end Gathers

/-- A variable is found where it stands, unless it is bound. -/
theorem gathers_variable {v : String} (bound found : List String) :
    Gathers (fun name p => name ∉ bound ∧ FreeAt name (.variable v) p) found
      (collectFree bound found (.variable v)) := by
  have hocc : ∀ name p, name ∉ bound ∧ FreeAt name (.variable v) p → name ∉ bound ∧ name = v := by
    rintro name p ⟨hname, hfree⟩
    exact ⟨hname, (freeAt_variable.mp hfree).1.symm⟩
  rw [collectFree]
  split
  · rename_i h
    refine .known fun name p hp => ?_
    obtain ⟨hname, rfl⟩ := hocc name p hp
    exact absurd (List.contains_iff_mem.mp h) hname
  · rename_i h
    have hv : v ∉ bound := fun hb => h (List.contains_iff_mem.mpr hb)
    rw [insertName]
    split
    · rename_i hfound
      refine .known fun name p hp => ?_
      obtain ⟨-, rfl⟩ := hocc name p hp
      exact List.contains_iff_mem.mp hfound
    · rename_i hfound
      refine ⟨[v], rfl, List.nodup_singleton v, fun name => ?_, List.pairwise_singleton _ _⟩
      rw [List.mem_singleton]
      refine ⟨?_, fun ⟨_, p, hp⟩ => (hocc name p hp).2⟩
      rintro rfl
      exact ⟨fun hb => hfound (List.contains_iff_mem.mpr hb), [], hv, .leaf⟩

/-- The name is free in one of the branches, whose paths are counted from the given number on. -/
def FreeIn (bound : List String) (bs : List (List String × Expr)) (k : Nat) (name : String) (p : List Nat) : Prop :=
  ∃ i names a inner, p = (k + i) :: inner ∧ bs[i]? = some (names, a) ∧ name ∉ names ++ bound ∧ FreeAt name a inner

theorem freeIn_cons {bound names : List String} {a : Expr} {bs : List (List String × Expr)} {k : Nat} {name : String}
    {p : List Nat} :
    FreeIn bound ((names, a) :: bs) k name p ↔
      (∃ inner, p = k :: inner ∧ name ∉ names ++ bound ∧ FreeAt name a inner) ∨ FreeIn bound bs (k + 1) name p := by
  constructor
  · rintro ⟨_ | i, names', b, inner, rfl, hb, hfree⟩
    · cases hb
      exact .inl ⟨inner, rfl, hfree⟩
    · exact .inr ⟨i, names', b, inner, by rw [Nat.add_right_comm, Nat.add_assoc], hb, hfree⟩
  · rintro (⟨inner, rfl, hfree⟩ | ⟨i, names', b, inner, rfl, hb, hfree⟩)
    · exact ⟨0, names, a, inner, rfl, rfl, hfree⟩
    · exact ⟨i + 1, names', b, inner, by rw [Nat.add_right_comm, Nat.add_assoc], hb, hfree⟩

/-- If each branch is gathered, so are the branches one after the other. -/
theorem gathers_foldl (bound : List String) :
    (bs : List (List String × Expr)) → (k : Nat) → (found : List String) →
      (∀ b ∈ bs, ∀ bound found,
        Gathers (fun name p => name ∉ bound ∧ FreeAt name b.2 p) found (collectFree bound found b.2)) →
      Gathers (FreeIn bound bs k) found (bs.foldl (fun found b => collectFree (b.1 ++ bound) found b.2) found)
  | [], k, found, _ => by
    refine .known ?_
    rintro name p ⟨i, names, a, inner, -, h, -⟩
    cases h
  | (names, a) :: bs, k, found, hbs => by
    have hhead := (hbs _ List.mem_cons_self (names ++ bound) found).under k
    have htail := gathers_foldl bound bs (k + 1) (collectFree (names ++ bound) found a) fun b hb =>
      hbs b (List.mem_cons_of_mem _ hb)
    refine .congr (fun name p => freeIn_cons) (hhead.append htail ?_)
    rintro a b _ _ ⟨inner, rfl, -⟩ ⟨i, _, _, _, rfl, -⟩
    exact List.cons_lt_cons_iff.mpr (.inl (by omega))

/-- What is collected behind the names found before are the names that occur free and are not bound. -/
theorem gathers_collectFree (e : Expr) (bound found : List String) :
    Gathers (fun name p => name ∉ bound ∧ FreeAt name e p) found (collectFree bound found e) := by
  by_cases he : ∃ v, e = .variable v
  · obtain ⟨v, rfl⟩ := he
    exact gathers_variable bound found
  · have he' : ∀ v, e ≠ .variable v := fun v hv => he ⟨v, hv⟩
    rw [collectFree_eq_foldl he']
    refine .congr (fun name p => ?_) (gathers_foldl bound e.branches 0 found fun b hb => gathers_collectFree b.2)
    rw [freeAt_iff he', FreeIn]
    simp only [Nat.zero_add, List.mem_append, not_or]
    grind
termination_by sizeOf e
decreasing_by exact sizeOf_lt_of_mem_branches hb

/-! ## One stack of scopes -/

/-- What is kept on the way through a tree: the names that are bound at the place, the innermost last, and the names
that were found free. -/
structure Walk where
  bound : List String
  found : List String

namespace Walk

/-- Goes through a body with more names bound, and cuts the stack back to its length afterwards. -/
def within (names : List String) (body : Walk → Walk) (w : Walk) : Walk :=
  let w' := body { w with bound := w.bound ++ names }
  { w' with bound := w'.bound.take w.bound.length }

def add (name : String) (w : Walk) : Walk :=
  if w.bound.contains name then w else { w with found := insertName w.found name }

end Walk

mutual

/-- Collects the free symbols with one stack for the whole tree. -/
def walk : Expr → Walk → Walk
  | .variable name, w => w.add name
  | .number .., w | .constant .., w | .function _, w => w
  | .pos a, w | .neg a, w | .factorial a _, w | .absolute a, w | .setInterval _ a, w | .truth a, w => a.walk w
  | .binary _ a b, w | .power a b _, w | .compose a b, w | .relation _ a b, w | .interval _ a b _, w =>
    b.walk (a.walk w)
  | .definition _ params body, w => w.within (params.filterMap name?) body.walk
  | .call _ args, w => walkList args w
  | .limit target approach body, w => (approach.walk w).within [target] body.walk
  | .big _ var lower upper body, w => (upper.walk (lower.walk w)).within [var] body.walk

def walkList : List Expr → Walk → Walk
  | [], w => w
  | e :: es, w => walkList es (e.walk w)

end

mutual

/-- In which order names are bound, and how often, makes no difference. -/
theorem collectFree_congr {bound bound' : List String} (h : ∀ s, s ∈ bound ↔ s ∈ bound') :
    (e : Expr) → (found : List String) → collectFree bound found e = collectFree bound' found e
  | .variable name, found => by
    have : bound.contains name = bound'.contains name := by
      rw [Bool.eq_iff_iff, List.contains_iff_mem, List.contains_iff_mem, h]
    rw [collectFree, collectFree, this]
  | .number .., _ | .constant .., _ | .function _, _ => rfl
  | .pos a, found | .neg a, found | .factorial a _, found | .absolute a, found | .setInterval _ a, found
  | .truth a, found => collectFree_congr h a found
  | .binary _ a b, found | .power a b _, found | .compose a b, found | .relation _ a b, found
  | .interval _ a b _, found => by
    rw [collectFree, collectFree, collectFree_congr h a, collectFree_congr h b]
  | .definition _ params body, found => by
    refine collectFree_congr (fun s => ?_) body found
    rw [List.mem_append, List.mem_append, h]
  | .call _ args, found => collectFreeList_congr h args found
  | .limit target a b, found => by
    have hb : ∀ s, s ∈ target :: bound ↔ s ∈ target :: bound' := fun s => by rw [List.mem_cons, List.mem_cons, h]
    rw [collectFree, collectFree, collectFree_congr h a, collectFree_congr hb b]
  | .big _ var a b c, found => by
    have hc : ∀ s, s ∈ var :: bound ↔ s ∈ var :: bound' := fun s => by rw [List.mem_cons, List.mem_cons, h]
    rw [collectFree, collectFree, collectFree_congr h a, collectFree_congr h b, collectFree_congr hc c]

theorem collectFreeList_congr {bound bound' : List String} (h : ∀ s, s ∈ bound ↔ s ∈ bound') :
    (es : List Expr) → (found : List String) → collectFreeList bound found es = collectFreeList bound' found es
  | [], _ => rfl
  | e :: es, found => by
    rw [collectFreeList, collectFreeList, collectFree_congr h e, collectFreeList_congr h es]

end

/-- A body that leaves the stack as it was does so in a scope as well. -/
theorem within_eq {names : List String} {body : Expr} {w : Walk}
    (h : ∀ w : Walk, body.walk w = ⟨w.bound, collectFree w.bound w.found body⟩) :
    w.within names body.walk = ⟨w.bound, collectFree (names ++ w.bound) w.found body⟩ := by
  rw [Walk.within, h]
  simp only [List.take_left, Walk.mk.injEq, true_and]
  exact collectFree_congr (fun s => by rw [List.mem_append, List.mem_append, or_comm]) body w.found

mutual

/-- A walk restores the stack on every path, and finds what is collected with the scopes handed down. -/
theorem walk_eq : (e : Expr) → (w : Walk) → e.walk w = ⟨w.bound, collectFree w.bound w.found e⟩
  | .variable name, w => by
    rw [walk, collectFree, Walk.add]
    split <;> rfl
  | .number .., _ | .constant .., _ | .function _, _ => rfl
  | .pos a, w | .neg a, w | .factorial a _, w | .absolute a, w | .setInterval _ a, w | .truth a, w => walk_eq a w
  | .binary _ a b, w | .power a b _, w | .compose a b, w | .relation _ a b, w | .interval _ a b _, w => by
    rw [walk, walk_eq a, walk_eq b, collectFree]
  | .definition _ params body, w => within_eq (walk_eq body)
  | .call _ args, w => walkList_eq args w
  | .limit target a b, w => by
    rw [walk, walk_eq a, within_eq (walk_eq b), collectFree]
    rfl
  | .big _ var a b c, w => by
    rw [walk, walk_eq a, walk_eq b, within_eq (walk_eq c), collectFree]
    rfl

theorem walkList_eq : (es : List Expr) → (w : Walk) → walkList es w = ⟨w.bound, collectFreeList w.bound w.found es⟩
  | [], _ => rfl
  | e :: es, w => by
    rw [walkList, walk_eq e, walkList_eq es, collectFreeList]

end

/-- The free symbols are what one walk with a shared stack finds, each once: the names with a free occurrence, in the
order in which their first ones are read. No tree leaves a name of its own on the stack. -/
theorem freeSymbols_occurrences (e : Expr) :
    (∀ w : Walk, (e.walk w).bound = w.bound) ∧ e.walk ⟨[], []⟩ = ⟨[], e.freeSymbols⟩ ∧ e.freeSymbols.Nodup ∧
      (∀ name, name ∈ e.freeSymbols ↔ ∃ path, e.FreeAt name path) ∧
      e.freeSymbols.Pairwise fun a b => ∃ p, e.FreeAt a p ∧ ∀ q, e.FreeAt b q → p < q := by
  obtain ⟨new, hnew, hnodup, hmem, hpairs⟩ := gathers_collectFree e [] []
  obtain rfl : e.freeSymbols = new := hnew
  simp only [List.not_mem_nil, not_false_eq_true, true_and] at hmem hpairs
  exact ⟨fun w => by rw [walk_eq], walk_eq e _, hnodup, hmem, hpairs⟩

/-- The sum of `ab` for `a` to `b` leaves the ends outside: `b` is read there first, then the free `a`. -/
example : (Expr.big .sum "a" (.variable "b") (.variable "a")
    (.binary .mul (.variable "a") (.variable "b"))).freeSymbols = ["b", "a"] := by decide

end Formula.Expr
