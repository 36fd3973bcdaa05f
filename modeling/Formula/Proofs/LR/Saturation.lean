import Formula.Proofs.LR.Follow
import Formula.Proofs.LR.Closing

/-!
# First and following terminals in rounds

The rounds that collect first and following terminals come to an end, and the sets are then those that are read off the
graphs of the grammar (`exists_firstSets` with `Saturated.first_eq`, `followSets_eq`).

What is collected is right at any time (`FirstSets.Sound`, `FollowSets.Sound`). A round that changes nothing has found
the demands of every production met (`FirstSets.Covers`, `FollowSets.Covers`), and then whatever the graphs lead to was
collected. Every other round collects a new fact, of which there are finitely many.
-/

namespace Formula.LR

/-! ## Sets by symbols -/

/-- A member of one of some sets; beyond the last there are none. -/
def hasAt (sets : List IndexSet) (symbol a : Nat) : Bool := (sets[symbol]?.getD .empty).has a

theorem hasAt_of_getElem? {sets : List IndexSet} {symbol : Nat} {s : IndexSet} (h : sets[symbol]? = some s) (a : Nat) :
    hasAt sets symbol a = s.has a := by
  rw [hasAt, h, Option.getD_some]

/-- Sets for as many symbols are equal if they have the same members. -/
theorem eq_of_hasAt {sets sets' : List IndexSet} (hl : sets.length = sets'.length)
    (h : ∀ symbol a, hasAt sets symbol a = hasAt sets' symbol a) : sets = sets' := by
  refine List.ext_getElem hl fun i hi hi' => IndexSet.ext fun a => ?_
  have := h i a
  rwa [hasAt_of_getElem? (List.getElem?_eq_getElem hi), hasAt_of_getElem? (List.getElem?_eq_getElem hi')] at this

/-- What is added is found where it was added, and growth is noticed. -/
theorem exists_addTo {sets : List IndexSet} {symbol : Nat} (h : symbol < sets.length) (found : IndexSet) :
    ∃ sets' grown, addTo sets symbol found = some (sets', grown) ∧ sets'.length = sets.length ∧
      (∀ s a, hasAt sets' s a = true ↔ hasAt sets s a = true ∨ s = symbol ∧ found.has a = true) ∧
      (grown = true → ∃ a, found.has a = true ∧ hasAt sets symbol a = false) ∧ (grown = false → sets' = sets) := by
  have hold := List.getElem?_eq_getElem h
  refine ⟨_, _, by rw [addTo, hold]; rfl, List.length_set, fun s a => ?_, fun hg => ?_, fun hg => ?_⟩
  · by_cases hs : s = symbol
    · subst hs
      rw [hasAt_of_getElem? (List.getElem?_set_self h), hasAt_of_getElem? hold, IndexSet.has_union, Bool.or_eq_true]
      simp
    · rw [hasAt, List.getElem?_set_ne (Ne.symm hs), ← hasAt]
      simp [hs]
  · obtain ⟨a, ha, hu⟩ := IndexSet.exists_new (s := sets[symbol]) (t := sets[symbol].union found)
      (fun i hi => by rw [IndexSet.has_union, hi, Bool.true_or]) (bne_iff_ne.mp hg)
    rw [IndexSet.has_union, ha, Bool.false_or] at hu
    exact ⟨a, hu, by rwa [hasAt_of_getElem? hold]⟩
  · rw [bne_eq_false_iff_eq.mp hg, List.set_getElem_self]

variable {g : Grammar}

/-! ## First terminals -/

namespace FirstSets

/-- The symbol may begin with the terminal; without a terminal, it may be empty. -/
def knows (f : FirstSets) : Nat × Option Nat → Bool
  | (s, some a) => hasAt f.first s a
  | (s, none) => f.nullable[s]?.getD false

/-- All facts that there may be. -/
def facts (g : Grammar) : List (Nat × Option Nat) :=
  (List.range g.symbols).flatMap fun s => (s, none) :: (List.range g.symbols).map fun a => (s, some a)

theorem mem_facts_none {s : Nat} (hs : s < g.symbols) : (s, none) ∈ facts g :=
  List.mem_flatMap.mpr ⟨s, List.mem_range.mpr hs, List.mem_cons_self⟩

theorem mem_facts_some {s a : Nat} (hs : s < g.symbols) (ha : a < g.symbols) : (s, some a) ∈ facts g :=
  List.mem_flatMap.mpr ⟨s, List.mem_range.mpr hs,
    List.mem_cons_of_mem _ (List.mem_map.mpr ⟨a, List.mem_range.mpr ha, rfl⟩)⟩

/-- Nothing was collected that does not hold. -/
structure Sound (g : Grammar) (f : FirstSets) : Prop where
  length_first : f.first.length = g.symbols
  length_nullable : f.nullable.length = g.symbols
  first : ∀ s a, f.knows (s, some a) = true → hasAt g.first s a = true
  nullable : ∀ s, f.knows (s, none) = true → g.nullable.has s = true

abbrev Leads (g : Grammar) : FirstSets → FirstSets → Prop := Grows knows changed (facts g)

/-- The demands of the rest of a production on what is known of its left-hand side. -/
def Covers (f : FirstSets) (lhs : Nat) : List Nat → Prop
  | [] => f.knows (lhs, none) = true
  | s :: rest => (∀ a, f.knows (s, some a) = true → f.knows (lhs, some a) = true) ∧
      (f.knows (s, none) = true → f.Covers lhs rest)

variable {f : FirstSets}

theorem Sound.getElem?_nullable (h : f.Sound g) {s : Nat} (hs : s < g.symbols) :
    f.nullable[s]? = some (f.knows (s, none)) := by
  obtain ⟨b, hb⟩ : ∃ b, f.nullable[s]? = some b := ⟨_, List.getElem?_eq_getElem (by rw [h.length_nullable]; exact hs)⟩
  rw [knows, hb, Option.getD_some]

theorem Sound.getElem?_first (h : f.Sound g) {s : Nat} (hs : s < g.symbols) :
    ∃ set, f.first[s]? = some set ∧ ∀ a, set.has a = f.knows (s, some a) :=
  have hs' := List.getElem?_eq_getElem (by rw [h.length_first]; exact hs)
  ⟨_, hs', fun a => (hasAt_of_getElem? hs' a).symm⟩

theorem lt_symbols_of_hasAt_first {s a : Nat} (h : hasAt g.first s a = true) : a < g.symbols :=
  (Grammar.has_first.mp h).2.2.2

/-- First terminals are added where the symbol may begin with them. -/
theorem Sound.exists_add (h : f.Sound g) {symbol : Nat} (hs : symbol < g.symbols) {found : IndexSet}
    (hf : ∀ a, found.has a = true → hasAt g.first symbol a = true) :
    ∃ f', f.add symbol found = some f' ∧ f'.Sound g ∧ Leads g f f' ∧
      (∀ s, f'.knows (s, none) = f.knows (s, none)) ∧
      ∀ s a, f'.knows (s, some a) = true ↔ f.knows (s, some a) = true ∨ s = symbol ∧ found.has a = true := by
  have hlt : symbol < f.first.length := by rwa [h.length_first]
  obtain ⟨first, grown, hadd, hlen, hhas, hgrown, hsame⟩ := exists_addTo hlt found
  refine ⟨{ f with first, changed := f.changed || grown }, by rw [add, hadd]; rfl, ?_, ?_, fun s => rfl, hhas⟩
  · refine ⟨hlen.trans h.length_first, h.length_nullable, fun s a hk => ?_, h.nullable⟩
    rcases (hhas s a).mp hk with hk | ⟨rfl, ha⟩
    · exact h.first s a hk
    · exact hf a ha
  · refine ⟨fun x hx => ?_, fun hc => ?_, fun hc => ?_⟩
    · obtain ⟨s, _ | a⟩ := x
      · exact hx
      · exact (hhas s a).mpr (.inl hx)
    · rcases Bool.or_eq_true_iff.mp hc with hc | hc
      · exact .inl hc
      · obtain ⟨a, ha, hnew⟩ := hgrown hc
        exact .inr ⟨(symbol, some a), mem_facts_some hs (lt_symbols_of_hasAt_first (hf a ha)), hnew,
          (hhas symbol a).mpr (.inr ⟨rfl, ha⟩)⟩
    · obtain ⟨hc, hg⟩ := Bool.or_eq_false_iff.mp hc
      rw [hsame hg, hg, Bool.or_false]

/-- A symbol that may be empty is marked. -/
theorem Sound.mark (h : f.Sound g) {symbol : Nat} (hs : symbol < g.symbols) (hn : g.nullable.has symbol = true)
    (hf : f.knows (symbol, none) = false) :
    Sound g { f with nullable := f.nullable.set symbol true, changed := true } ∧
      Leads g f { f with nullable := f.nullable.set symbol true, changed := true } := by
  have hlt : symbol < f.nullable.length := by rw [h.length_nullable]; exact hs
  have hknows : ∀ s, knows { f with nullable := f.nullable.set symbol true, changed := true } (s, none) = true ↔
      f.knows (s, none) = true ∨ s = symbol := by
    intro s
    by_cases hsym : s = symbol
    · subst hsym
      simp [knows, List.getElem?_set_self hlt]
    · simp [knows, List.getElem?_set_ne (Ne.symm hsym), hsym]
  refine ⟨⟨h.length_first, List.length_set.trans h.length_nullable, h.first, fun s hk => ?_⟩,
    fun x hx => ?_, fun _ => ?_, fun hc => ?_⟩
  · rcases (hknows s).mp hk with hk | rfl
    · exact h.nullable s hk
    · exact hn
  · obtain ⟨s, _ | a⟩ := x
    · exact (hknows s).mpr (.inl hx)
    · exact hx
  · exact .inr ⟨(symbol, none), mem_facts_none hs, hf, (hknows symbol).mpr (.inr rfl)⟩
  · cases hc

/-- Beyond what only symbols that may be empty stand before, a production adds what its rest begins with. If nothing is
new, its demands were met. -/
theorem Sound.exists_firstOfProduction (hc : g.Checked) {p : Production} (hp : p ∈ g.productions)
    {row before : List Nat} (hr : p.rhs = before ++ row) (hb : before.all g.nullable.has = true) (h : f.Sound g) :
    ∃ f', firstOfProduction p.lhs f row = some f' ∧ f'.Sound g ∧ Leads g f f' ∧
      (f'.changed = false → f.Covers p.lhs row) := by
  have hlhs : p.lhs < g.symbols := Nat.lt_of_lt_of_le (hc.lhs_lt p hp) hc.nonterminals_le
  induction row generalizing f before with
  | nil =>
    rw [List.append_nil] at hr
    rw [firstOfProduction, h.getElem?_nullable hlhs]
    cases hk : f.knows (p.lhs, none) with
    | true => exact ⟨f, rfl, h, .refl f, fun _ => hk⟩
    | false =>
      obtain ⟨hs, hg⟩ := h.mark hlhs (Grammar.has_nullable hc hp (hr ▸ hb)) hk
      exact ⟨_, rfl, hs, hg, fun hc => by cases hc⟩
  | cons symbol rest ih =>
    have hsym : symbol < g.symbols := hc.rhs_lt p hp symbol (by rw [hr]; simp)
    obtain ⟨found, hfound, hhas⟩ := h.getElem?_first hsym
    -- what the symbol may begin with, the left-hand side may begin with
    have hfirst : ∀ a, found.has a = true → hasAt g.first p.lhs a = true := by
      intro a ha
      rw [hhas] at ha
      exact Grammar.has_first_lhs hc hp (Grammar.has_firstOfRow_iff.mpr ⟨before, symbol, rest, hr, hb, h.first _ _ ha⟩)
    obtain ⟨f₁, hadd, hs₁, hg₁, hnone, hsome⟩ := h.exists_add hlhs hfirst
    have hcovers : f₁.changed = false → ∀ a, f.knows (symbol, some a) = true → f.knows (p.lhs, some a) = true := by
      intro hch a ha
      rw [← hhas] at ha
      have := (hsome p.lhs a).mpr (.inr ⟨rfl, ha⟩)
      rwa [hg₁.same hch] at this
    rw [firstOfProduction, hfound]
    simp only [Option.bind_eq_bind, Option.bind_some, hadd, hs₁.getElem?_nullable hsym, hnone]
    cases hk : f.knows (symbol, none) with
    | false => exact ⟨f₁, rfl, hs₁, hg₁, fun hch => ⟨hcovers hch, fun hk' => by rw [hk] at hk'; cases hk'⟩⟩
    | true =>
      have hr' : p.rhs = before ++ [symbol] ++ rest := by rw [hr]; simp
      have hb' : (before ++ [symbol]).all g.nullable.has = true := by
        rw [List.all_append, hb, List.all_cons, h.nullable _ hk]
        rfl
      obtain ⟨f₂, hrest, hs₂, hg₂, hcov⟩ := ih hr' hb' hs₁
      refine ⟨f₂, hrest, hs₂, hg₁.trans hg₂, fun hch => ?_⟩
      have hch₁ : f₁.changed = false := hg₂.same hch ▸ hch
      have he : f₁ = f := hg₁.same hch₁
      exact ⟨hcovers hch₁, fun _ => he ▸ hcov hch⟩

/-! ### The last round -/

/-- The demands of all productions are met, and each terminal begins with itself. -/
structure Saturated (g : Grammar) (f : FirstSets) : Prop where
  sound : f.Sound g
  terminal : ∀ t, g.IsTerminal t → t < g.symbols → f.knows (t, some t) = true
  covers : ∀ p ∈ g.productions, f.Covers p.lhs p.rhs

theorem Covers.nullable {lhs : Nat} {row : List Nat} (h : f.Covers lhs row)
    (hr : ∀ s ∈ row, f.knows (s, none) = true) : f.knows (lhs, none) = true := by
  induction row with
  | nil => exact h
  | cons s rest ih => exact ih (h.2 (hr s List.mem_cons_self)) fun t ht => hr t (List.mem_cons_of_mem s ht)

theorem Covers.first {lhs b a : Nat} {before after : List Nat} (h : f.Covers lhs (before ++ b :: after))
    (hb : ∀ s ∈ before, f.knows (s, none) = true) (ha : f.knows (b, some a) = true) : f.knows (lhs, some a) = true := by
  induction before with
  | nil => exact h.1 a ha
  | cons s before ih => exact ih (h.2 (hb s List.mem_cons_self)) fun t ht => hb t (List.mem_cons_of_mem s ht)

variable (h : f.Saturated g)

include h

theorem Saturated.nullable_of_repeat (rounds : Nat) {s : Nat}
    (hs : (Nat.repeat g.nullableStep rounds .empty).has s = true) : f.knows (s, none) = true := by
  induction rounds generalizing s with
  | zero =>
    rw [show Nat.repeat g.nullableStep 0 .empty = .empty from rfl, IndexSet.has_empty] at hs
    cases hs
  | succ n ih =>
    rcases Grammar.has_nullableStep.mp hs with hs | ⟨p, hp, hr, rfl⟩
    · exact ih hs
    · exact (h.covers p hp).nullable fun t ht => ih (List.all_eq_true.mp hr t ht)

theorem Saturated.knows_nullable {s : Nat} : f.knows (s, none) = g.nullable.has s :=
  Bool.eq_iff_iff.mpr ⟨h.sound.nullable s, h.nullable_of_repeat _⟩

theorem Saturated.nullable_eq : f.nullable = (List.range g.symbols).map g.nullable.has := by
  refine List.ext_getElem? fun s => ?_
  by_cases hs : s < g.symbols
  · rw [h.sound.getElem?_nullable hs, h.knows_nullable, List.getElem?_map, List.getElem?_range hs, Option.map_some]
  · have hle := Nat.le_of_not_lt hs
    rw [List.getElem?_eq_none (h.sound.length_nullable ▸ hle),
      List.getElem?_eq_none (by rwa [List.length_map, List.length_range])]

theorem Saturated.knows_first {s a : Nat} : f.knows (s, some a) = hasAt g.first s a := by
  refine Bool.eq_iff_iff.mpr ⟨h.sound.first s a, fun ha => ?_⟩
  obtain ⟨-, hpath, ht, hlt⟩ := Grammar.has_first.mp ha
  clear ha
  induction hpath using Relation.ReflTransGen.head_induction_on with
  | refl => exact h.terminal a ht hlt
  | head hedge _ ih =>
    obtain ⟨p, hp, hl⟩ := List.mem_flatMap.mp (List.mem_eraseDups.mp hedge)
    obtain ⟨rfl, before, after, hr, hn⟩ := Grammar.mem_leads_iff.mp hl
    have hcov := h.covers p hp
    rw [hr] at hcov
    exact hcov.first (fun t ht => h.knows_nullable.trans (List.all_eq_true.mp hn t ht)) ih

theorem Saturated.first_eq : f.first = g.first := by
  refine eq_of_hasAt ?_ fun s a => h.knows_first
  rw [h.sound.length_first, Grammar.first, List.length_map, List.length_range]

omit h in
/-- A round looks at every production. If nothing is new, all demands were met. -/
theorem Sound.exists_round (hc : g.Checked) (hs : f.Sound g) :
    ∃ f', g.encoded.foldlM firstOfEncoded f = some f' ∧ f'.Sound g ∧ Leads g f f' ∧
      (f'.changed = false → ∀ p ∈ g.productions, f'.Covers p.lhs p.rhs) := by
  obtain ⟨f', hfold, hs', hg, hcov⟩ := LR.exists_round (f := firstOfEncoded) (Sound g)
    (fun f row => ∀ p : Production, p.lhs :: p.rhs = row → f.Covers p.lhs p.rhs)
    (fun row hrow f hs => by
      obtain ⟨p, hp, rfl⟩ := Grammar.exists_of_mem_encoded hrow
      obtain ⟨f', hstep, hs', hg, hcov⟩ := hs.exists_firstOfProduction hc hp (List.nil_append p.rhs).symm rfl
      refine ⟨f', hstep, hs', hg, fun hch q hq => ?_⟩
      obtain ⟨hl, hr⟩ := List.cons.inj hq
      rw [hl, hr]
      exact hcov hch) hs
  exact ⟨f', hfold, hs', hg, fun hch p hp => hcov hch _ (List.mem_map.mpr ⟨p, hp, rfl⟩) p rfl⟩

end FirstSets

namespace Grammar

/-- First terminals are found with a round for each fact and one more. -/
theorem exists_firstSets (hc : g.Checked) {rounds : Nat} (hr : (FirstSets.facts g).length < rounds) :
    ∃ f, firstSets g.encoded g.nonterminals g.symbols rounds = some f ∧ f.Saturated g := by
  refine exists_iterate
    (fun f => f.Sound g ∧ ∀ t, g.IsTerminal t → t < g.symbols → f.knows (t, some t) = true)
    (fun f => (missing FirstSets.knows (FirstSets.facts g) f).length) (fun f ⟨hs, ht⟩ => ?_) ⟨⟨?_, ?_, ?_, ?_⟩, ?_⟩
    (Nat.lt_of_le_of_lt (List.length_filter_le _ _) hr)
  · have hs₀ : FirstSets.Sound g { f with changed := false } :=
      ⟨hs.length_first, hs.length_nullable, hs.first, hs.nullable⟩
    obtain ⟨f', hround, hs', hg, hcov⟩ := hs₀.exists_round hc
    have ht' : ∀ t, g.IsTerminal t → t < g.symbols → f'.knows (t, some t) = true :=
      fun t hter hlt => hg.keeps (t, some t) (ht t hter hlt)
    rw [firstStep, hround]
    cases hch : f'.changed with
    | true => exact .inl ⟨f', by simp [hch], ⟨hs', ht'⟩, hg.missing_lt rfl hch⟩
    | false => exact .inr ⟨f', by simp [hch], hs', ht', hcov hch⟩
  · rw [List.length_map, List.length_range]
  · exact List.length_replicate
  · intro s a h
    rw [FirstSets.knows, hasAt, List.getElem?_map] at h
    by_cases hs : s < g.symbols
    · rw [List.getElem?_range hs, Option.map_some, Option.getD_some] at h
      split at h
      · obtain rfl := List.mem_singleton.mp (IndexSet.has_ofList.mp h)
        exact has_first.mpr ⟨hs, .refl, ‹_›, hs⟩
      · rw [IndexSet.has_empty] at h
        cases h
    · rw [List.getElem?_eq_none (by simpa using hs), Option.map_none, Option.getD_none, IndexSet.has_empty] at h
      cases h
  · intro s h
    rw [FirstSets.knows, List.getElem?_replicate] at h
    split at h <;> cases h
  · intro t ht hlt
    have hle : g.nonterminals ≤ t := ht
    rw [FirstSets.knows, hasAt, List.getElem?_map, List.getElem?_range hlt, Option.map_some, Option.getD_some,
      if_pos hle]
    exact IndexSet.has_ofList.mpr List.mem_cons_self

end Grammar

/-! ## Following terminals -/

namespace FollowSets

/-- The terminal may follow the nonterminal. -/
def knows (s : FollowSets) (x : Nat × Nat) : Bool := hasAt s.follow x.1 x.2

/-- All facts that there may be. -/
def facts (g : Grammar) : List (Nat × Nat) :=
  (List.range g.nonterminals).flatMap fun s => (List.range g.symbols).map fun a => (s, a)

theorem mem_facts {s a : Nat} (hs : s < g.nonterminals) (ha : a < g.symbols) : (s, a) ∈ facts g :=
  List.mem_flatMap.mpr ⟨s, List.mem_range.mpr hs, List.mem_map.mpr ⟨a, List.mem_range.mpr ha, rfl⟩⟩

/-- Nothing was collected that does not hold. -/
structure Sound (g : Grammar) (s : FollowSets) : Prop where
  length_eq : s.follow.length = g.nonterminals
  follows : ∀ b a, s.knows (b, a) = true → g.Follows b a

abbrev Leads (g : Grammar) : FollowSets → FollowSets → Prop := Grows knows changed (facts g)

/-- The demands of the places of nonterminals in a row. -/
def Covers (g : Grammar) (s : FollowSets) (lhs : Nat) : List Nat → Prop
  | [] => True
  | b :: rest => (b < g.nonterminals →
      (∀ a, (Grammar.firstOfRow g.nullable g.first rest).has a = true → s.knows (b, a) = true) ∧
      (rest.all g.nullable.has = true → ∀ a, s.knows (lhs, a) = true → s.knows (b, a) = true)) ∧ s.Covers g lhs rest

/-- Only symbols follow. -/
theorem lt_symbols_of_follows (hc : g.Checked) {b a : Nat} (hb : b < g.nonterminals) (h : g.Follows b a) :
    a < g.symbols := by
  obtain ⟨c, -, -, hseed⟩ := (Grammar.follows_iff hb).mp h
  rcases Grammar.has_followSeed.mp hseed with ⟨-, rfl⟩ | ⟨-, p, -, before, rest, -, ha⟩
  · have := hc.nonterminals_le
    rw [Grammar.endMarker]
    omega
  · obtain ⟨_, d, _, -, -, hf⟩ := Grammar.has_firstOfRow_iff.mp ha
    exact (Grammar.has_first.mp hf).2.2.2

variable {s : FollowSets}

theorem Sound.exists_add (hc : g.Checked) (h : s.Sound g) {b : Nat} (hb : b < g.nonterminals) {found : IndexSet}
    (hf : ∀ a, found.has a = true → g.Follows b a) :
    ∃ s', s.add b found = some s' ∧ s'.Sound g ∧ Leads g s s' ∧
      ∀ c a, s'.knows (c, a) = true ↔ s.knows (c, a) = true ∨ c = b ∧ found.has a = true := by
  have hlt : b < s.follow.length := by rwa [h.length_eq]
  obtain ⟨follow, grown, hadd, hlen, hhas, hgrown, hsame⟩ := exists_addTo hlt found
  refine ⟨⟨follow, s.changed || grown⟩, by rw [add, hadd]; rfl, ⟨hlen.trans h.length_eq, fun c a hk => ?_⟩,
    ⟨fun x hx => (hhas x.1 x.2).mpr (.inl hx), fun hch => ?_, fun hch => ?_⟩, hhas⟩
  · rcases (hhas c a).mp hk with hk | ⟨rfl, ha⟩
    · exact h.follows c a hk
    · exact hf a ha
  · rcases Bool.or_eq_true_iff.mp hch with hch | hch
    · exact .inl hch
    · obtain ⟨a, ha, hnew⟩ := hgrown hch
      exact .inr ⟨(b, a), mem_facts hb (lt_symbols_of_follows hc hb (hf a ha)), hnew,
        (hhas b a).mpr (.inr ⟨rfl, ha⟩)⟩
  · obtain ⟨hch, hg⟩ := Bool.or_eq_false_iff.mp hch
    rw [hsame hg, hg, Bool.or_false]

/-- What the rest of a row begins with is collected as it is, once first terminals are. -/
theorem firstOfRest_eq {f : FirstSets} (hf : f.Saturated g) {row : List Nat} (hrow : ∀ s ∈ row, s < g.symbols)
    (found : IndexSet) : firstOfRest f found row =
      some (found.union (Grammar.firstOfRow g.nullable g.first row), row.all g.nullable.has) := by
  induction row generalizing found with
  | nil =>
    have he : found.union .empty = found := IndexSet.ext fun a => by
      rw [IndexSet.has_union, IndexSet.has_empty, Bool.or_false]
    rw [firstOfRest, Grammar.firstOfRow, he]
    rfl
  | cons b rest ih =>
    have hb := hrow b List.mem_cons_self
    obtain ⟨set, hset, -⟩ := hf.sound.getElem?_first hb
    have hset' := hset
    rw [hf.first_eq] at hset'
    rw [firstOfRest, hset, hf.sound.getElem?_nullable hb, hf.knows_nullable, Grammar.firstOfRow, hset']
    cases hn : g.nullable.has b with
    | true =>
      have hassoc : (found.union set).union (Grammar.firstOfRow g.nullable g.first rest) =
          found.union (set.union (Grammar.firstOfRow g.nullable g.first rest)) :=
        IndexSet.ext fun a => by simp only [IndexSet.has_union, Bool.or_assoc]
      simp [ih (fun s hs => hrow s (List.mem_cons_of_mem b hs)), hassoc, hn]
    | false => simp [hn]

/-- Behind a place that may end a production, what follows the left-hand side is added. -/
theorem Sound.exists_pass (hc : g.Checked) (h : s.Sound g) {p : Production} (hp : p ∈ g.productions) {b : Nat}
    {before rest : List Nat} (hr : p.rhs = before ++ b :: rest) (hb : b < g.nonterminals) :
    ∃ s', s.pass p.lhs b (rest.all g.nullable.has) = some s' ∧ s'.Sound g ∧ Leads g s s' ∧
      (rest.all g.nullable.has = true → ∀ a, s.knows (p.lhs, a) = true → s'.knows (b, a) = true) := by
  rw [pass]
  split
  · rename_i hn
    obtain ⟨set, hset⟩ : ∃ set, s.follow[p.lhs]? = some set :=
      ⟨_, List.getElem?_eq_getElem (by rw [h.length_eq]; exact hc.lhs_lt p hp)⟩
    have hhas : ∀ a, s.knows (p.lhs, a) = set.has a := hasAt_of_getElem? hset
    have hfol : ∀ a, set.has a = true → g.Follows b a := fun a ha =>
      Grammar.follows_last hp hr hb hc hn (h.follows p.lhs a ((hhas a).trans ha))
    obtain ⟨s', hadd, hs', hg, hk⟩ := h.exists_add hc hb hfol
    refine ⟨s', by rw [hset]; exact hadd, hs', hg, fun _ a ha => (hk b a).mpr (.inr ⟨rfl, ?_⟩)⟩
    rwa [← hhas]
  · rename_i hn
    exact ⟨s, rfl, h, .refl s, fun hn' => absurd hn' hn⟩

/-- What stands behind each nonterminal of a row is added, and what follows the left-hand side if that may be empty. If
nothing is new, the demands of the row were met. -/
theorem Sound.exists_followInProduction (hc : g.Checked) {f : FirstSets} (hf : f.Saturated g) {p : Production}
    (hp : p ∈ g.productions) {row before : List Nat} (hr : p.rhs = before ++ row) (h : s.Sound g) :
    ∃ s', followInProduction g.nonterminals f p.lhs s row = some s' ∧ s'.Sound g ∧ Leads g s s' ∧
      (s'.changed = false → s.Covers g p.lhs row) := by
  induction row generalizing s before with
  | nil => exact ⟨s, rfl, h, .refl s, fun _ => trivial⟩
  | cons b rest ih =>
    have hr' : p.rhs = before ++ [b] ++ rest := by rw [hr]; simp
    rw [followInProduction]
    by_cases hb : g.nonterminals ≤ b
    · obtain ⟨s', hs', hsound, hg, hcov⟩ := ih hr' h
      rw [if_pos hb]
      exact ⟨s', hs', hsound, hg, fun hch => ⟨fun hlt => absurd hb (Nat.not_le.mpr hlt), hcov hch⟩⟩
    · have hb' := Nat.lt_of_not_le hb
      have hrest : ∀ c ∈ rest, c < g.symbols := fun c hm => hc.rhs_lt p hp c (by rw [hr]; simp [hm])
      have hempty : IndexSet.empty.union (Grammar.firstOfRow g.nullable g.first rest) =
          Grammar.firstOfRow g.nullable g.first rest :=
        IndexSet.ext fun a => by rw [IndexSet.has_union, IndexSet.has_empty, Bool.false_or]
      obtain ⟨s₁, hadd, hs₁, hg₁, hk₁⟩ := h.exists_add hc hb' fun a ha => Grammar.follows_first hp hr hb' ha
      obtain ⟨s₂, hpass, hs₂, hg₂, hk₂⟩ := hs₁.exists_pass hc hp hr hb'
      obtain ⟨s₃, hstep, hs₃, hg₃, hcov⟩ := ih hr' hs₂
      refine ⟨s₃, ?_, hs₃, (hg₁.trans hg₂).trans hg₃, fun hch => ?_⟩
      · rw [if_neg hb, firstOfRest_eq hf hrest, hempty]
        simp only [Option.bind_eq_bind, Option.bind_some, hadd, hpass]
        exact hstep
      · have hch₂ : s₂.changed = false := hg₃.same hch ▸ hch
        have he₂ : s₂ = s₁ := hg₂.same hch₂
        have he₁ : s₁ = s := hg₁.same (he₂ ▸ hch₂)
        have hcov := hcov hch
        rw [he₂, he₁] at hk₂ hcov
        rw [he₁] at hk₁
        exact ⟨fun _ => ⟨fun a ha => (hk₁ b a).mpr (.inr ⟨rfl, ha⟩), hk₂⟩, hcov⟩

/-- A round looks at every production. If nothing is new, all demands were met. -/
theorem Sound.exists_round (hc : g.Checked) {f : FirstSets} (hf : f.Saturated g) (hs : s.Sound g) :
    ∃ s', g.encoded.foldlM (followInEncoded g.nonterminals f) s = some s' ∧ s'.Sound g ∧ Leads g s s' ∧
      (s'.changed = false → ∀ p ∈ g.productions, s'.Covers g p.lhs p.rhs) := by
  obtain ⟨s', hfold, hs', hg, hcov⟩ := LR.exists_round (f := followInEncoded g.nonterminals f) (Sound g)
    (fun s row => ∀ p : Production, p.lhs :: p.rhs = row → s.Covers g p.lhs p.rhs)
    (fun row hrow s hs => by
      obtain ⟨p, hp, rfl⟩ := Grammar.exists_of_mem_encoded hrow
      obtain ⟨s', hstep, hs', hg, hcov⟩ := hs.exists_followInProduction hc hf hp (List.nil_append p.rhs).symm
      refine ⟨s', hstep, hs', hg, fun hch q hq => ?_⟩
      obtain ⟨hl, hr⟩ := List.cons.inj hq
      rw [hl, hr]
      exact hcov hch) hs
  exact ⟨s', hfold, hs', hg, fun hch p hp => hcov hch _ (List.mem_map.mpr ⟨p, hp, rfl⟩) p rfl⟩

/-! ### The last round -/

/-- The demands of all productions are met, and the end stands behind the goals. -/
structure Saturated (g : Grammar) (s : FollowSets) : Prop where
  sound : s.Sound g
  goal : ∀ b ∈ g.goalSymbols, s.knows (b, g.endMarker) = true
  covers : ∀ p ∈ g.productions, s.Covers g p.lhs p.rhs

theorem Covers.split {lhs b : Nat} {before rest : List Nat} (h : s.Covers g lhs (before ++ b :: rest))
    (hb : b < g.nonterminals) :
    (∀ a, (Grammar.firstOfRow g.nullable g.first rest).has a = true → s.knows (b, a) = true) ∧
      (rest.all g.nullable.has = true → ∀ a, s.knows (lhs, a) = true → s.knows (b, a) = true) := by
  induction before with
  | nil => exact h.1 hb
  | cons _ before ih => exact ih h.2

theorem Saturated.knows_iff (h : s.Saturated g) {b a : Nat} (hb : b < g.nonterminals) :
    s.knows (b, a) = true ↔ g.Follows b a := by
  refine ⟨h.sound.follows b a, fun ha => ?_⟩
  obtain ⟨c, hc, hpath, hseed⟩ := (Grammar.follows_iff hb).mp ha
  clear hb ha
  induction hpath using Relation.ReflTransGen.head_induction_on with
  | refl =>
    rcases Grammar.has_followSeed.mp hseed with ⟨hg, rfl⟩ | ⟨-, p, hp, before, rest, hr, hf⟩
    · exact h.goal c hg
    · have hcov := h.covers p hp
      rw [hr] at hcov
      exact (hcov.split hc).1 a hf
  | head hedge _ ih =>
    obtain ⟨hlt, p, hp, rfl, before, rest, hr, hn⟩ := Grammar.edge_followEdges.mp hedge
    have hcov := h.covers p hp
    rw [hr] at hcov
    exact (hcov.split hlt).2 hn a ih

theorem Saturated.follow_eq (h : s.Saturated g) : s.follow = g.follow := by
  have hl : g.follow.length = g.nonterminals := by rw [Grammar.follow, List.length_map, List.length_range]
  refine eq_of_hasAt (h.sound.length_eq.trans hl.symm) fun b a => ?_
  by_cases hb : b < g.nonterminals
  · obtain ⟨set, hset⟩ : ∃ set, g.follow[b]? = some set := ⟨_, List.getElem?_eq_getElem (by rwa [hl])⟩
    have hfol : g.Follows b a ↔ set.has a = true := by simp [Grammar.Follows, hset]
    rw [hasAt_of_getElem? hset, Bool.eq_iff_iff, ← hfol]
    exact h.knows_iff hb
  · rw [hasAt, hasAt, List.getElem?_eq_none (by rw [h.sound.length_eq]; omega), List.getElem?_eq_none (by omega)]

end FollowSets

namespace Grammar

/-- The left-hand sides of the goals are found. -/
theorem mapM_goals (hc : g.Checked) :
    (g.goals.mapM fun goal => do (← g.encoded[goal]?)[0]?) = some g.goalSymbols := by
  suffices h : ∀ goals : List Nat, (∀ goal ∈ goals, goal ∈ g.goals) →
      (goals.mapM fun goal => do (← g.encoded[goal]?)[0]?) =
        some (goals.filterMap fun p => g.productions[p]?.map (·.lhs)) from h g.goals fun _ h => h
  intro goals
  induction goals with
  | nil => exact fun _ => rfl
  | cons goal goals ih =>
    intro hg
    obtain ⟨p, -, hp, -⟩ := hc.goal goal (hg goal List.mem_cons_self)
    rw [List.mapM_cons, encoded_getElem? hp, ih fun n hn => hg n (List.mem_cons_of_mem goal hn), List.filterMap_cons,
      hp]
    rfl

theorem lt_of_mem_goalSymbols (hc : g.Checked) {b : Nat} (h : b ∈ g.goalSymbols) : b < g.nonterminals := by
  obtain ⟨n, -, hn⟩ := List.mem_filterMap.mp h
  obtain ⟨p, hp, rfl⟩ := Option.map_eq_some_iff.mp hn
  exact hc.lhs_lt p (List.mem_of_getElem? hp)

theorem follows_of_mem_goalSymbols (hc : g.Checked) {b : Nat} (h : b ∈ g.goalSymbols) : g.Follows b g.endMarker := by
  obtain ⟨n, hg, hn⟩ := List.mem_filterMap.mp h
  obtain ⟨p, hp, rfl⟩ := Option.map_eq_some_iff.mp hn
  exact follows_goal hc hg hp

/-- A grammar with a nonterminal has a last symbol. -/
theorem lastOf?_eq (hc : g.Checked) {b : Nat} (h : b < g.nonterminals) : lastOf? g.symbols = some g.endMarker := by
  have := hc.nonterminals_le
  rw [lastOf?, if_neg (by omega)]
  rfl

/-- The end is added behind the goals. -/
theorem exists_goal_ends (hc : g.Checked) :
    ∃ s, g.goalSymbols.foldlM (fun s symbol => FollowSets.add s symbol (.ofList [g.endMarker]))
        ⟨List.replicate g.nonterminals .empty, true⟩ = some s ∧
      s.Sound g ∧ ∀ b ∈ g.goalSymbols, s.knows (b, g.endMarker) = true := by
  refine exists_foldlM (fun done s => FollowSets.Sound g s ∧ ∀ b ∈ done, s.knows (b, g.endMarker) = true)
    (fun done b s hb ⟨hs, hdone⟩ => ?_) ⟨⟨List.length_replicate, fun b a h => ?_⟩, fun _ h => absurd h List.not_mem_nil⟩
  · have hfol : ∀ a, (IndexSet.ofList [g.endMarker]).has a = true → g.Follows b a := by
      intro a ha
      rw [List.mem_singleton.mp (IndexSet.has_ofList.mp ha)]
      exact follows_of_mem_goalSymbols hc hb
    obtain ⟨s', hadd, hs', hg, hk⟩ := hs.exists_add hc (lt_of_mem_goalSymbols hc hb) hfol
    refine ⟨s', hadd, hs', fun c hcm => ?_⟩
    rcases List.mem_append.mp hcm with hcm | hcm
    · exact hg.keeps _ (hdone c hcm)
    · exact (hk c g.endMarker).mpr (.inr ⟨List.mem_singleton.mp hcm, IndexSet.has_ofList.mpr List.mem_cons_self⟩)
  · rw [FollowSets.knows, hasAt, List.getElem?_replicate] at h
    split at h <;> simp [IndexSet.has_empty] at h

/-- Following terminals are found with a round for each fact and one more. -/
theorem followSets_eq (hc : g.Checked) (hn : 0 < g.nonterminals) {f : FirstSets} (hf : f.Saturated g) {rounds : Nat}
    (hr : (FollowSets.facts g).length < rounds) :
    followSets g.encoded g.nonterminals g.symbols g.goals rounds f = some g.follow := by
  obtain ⟨s, hstarts, hs, hgoal⟩ := exists_goal_ends hc
  obtain ⟨l, hl, rfl⟩ : ∃ l, iterate (followStep g.encoded g.nonterminals f) rounds s = some l ∧ l = g.follow := by
    refine exists_iterate (fun s => s.Sound g ∧ ∀ b ∈ g.goalSymbols, s.knows (b, g.endMarker) = true)
      (fun s => (missing FollowSets.knows (FollowSets.facts g) s).length) (fun s ⟨hs, hgoal⟩ => ?_) ⟨hs, hgoal⟩
      (Nat.lt_of_le_of_lt (List.length_filter_le _ _) hr)
    have hs₀ : FollowSets.Sound g { s with changed := false } := ⟨hs.length_eq, hs.follows⟩
    obtain ⟨s', hround, hs', hg, hcov⟩ := hs₀.exists_round hc hf
    have hgoal' : ∀ b ∈ g.goalSymbols, s'.knows (b, g.endMarker) = true := fun b hb => hg.keeps _ (hgoal b hb)
    rw [followStep, hround]
    cases hch : s'.changed with
    | true => exact .inl ⟨s', by simp [hch], ⟨hs', hgoal'⟩, hg.missing_lt rfl hch⟩
    | false =>
      have hsat : s'.Saturated g := ⟨hs', hgoal', hcov hch⟩
      exact .inr ⟨s'.follow, by simp [hch], hsat.follow_eq⟩
  rw [followSets, mapM_goals hc, lastOf?_eq hc hn]
  simp only [Option.bind_eq_bind, Option.bind_some, hstarts]
  exact hl

end Grammar

end Formula.LR
