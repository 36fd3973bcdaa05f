import Formula.Proofs.LR.Lookahead

/-!
# Following terminals

A terminal is found to follow a nonterminal exactly if it stands directly behind it in a row that some nonterminal
derives; the end of the input follows the nonterminals that a row derived from a goal ends with (`exists_follow_iff`).

What is found is derived, by induction on the path from the nonterminal to a place where the terminal stands:
`Trails` goes from a nonterminal to the one that it ends a production of. For the converse a derivation is followed
from its start (`follows_of_derives`). Every row on the way has the property that whatever may come to stand behind
one of its nonterminals follows this nonterminal, where `Behind` says what may come to stand behind a place: a first
terminal of the row there, and, if all of the row may vanish, what follows the symbol that everything was derived
from.
-/

namespace Formula.LR.Grammar

variable {g : Grammar}

/-! ## Places of nonterminals -/

theorem mem_splits_iff {row rest : List Nat} {s : Nat} :
    (s, rest) ∈ splits row ↔ ∃ before, row = before ++ s :: rest := by
  induction row with
  | nil => simp [splits]
  | cons b row ih =>
    rw [splits, List.mem_cons, Prod.mk.injEq, ih]
    constructor
    · rintro (⟨rfl, rfl⟩ | ⟨before, rfl⟩)
      · exact ⟨[], rfl⟩
      · exact ⟨b :: before, rfl⟩
    · rintro ⟨before, he⟩
      cases before with
      | nil =>
        obtain ⟨rfl, rfl⟩ := List.cons.inj he
        exact .inl ⟨rfl, rfl⟩
      | cons c before => exact .inr ⟨before, (List.cons.inj he).2⟩

theorem mem_occurrences_iff {a s : Nat} {rest : List Nat} :
    (a, s, rest) ∈ g.occurrences ↔
      s < g.nonterminals ∧ ∃ p ∈ g.productions, p.lhs = a ∧ ∃ before, p.rhs = before ++ s :: rest := by
  simp only [occurrences, List.mem_flatMap, List.mem_map, List.mem_filter, decide_eq_true_eq, Prod.exists,
    Prod.mk.injEq, mem_splits_iff]
  constructor
  · rintro ⟨p, hp, s, rest, ⟨hr, hs⟩, rfl, rfl, rfl⟩
    exact ⟨hs, p, hp, rfl, hr⟩
  · rintro ⟨hs, p, hp, rfl, hr⟩
    exact ⟨p, hp, s, rest, ⟨hr, hs⟩, rfl, rfl, rfl⟩

/-- A symbol of two rows stands in the first or in the second. -/
theorem append_eq_append_cons {x y before after : List Nat} {s : Nat} (h : x ++ y = before ++ s :: after) :
    (∃ v, x = before ++ s :: v ∧ after = v ++ y) ∨ ∃ u, y = u ++ s :: after ∧ before = x ++ u := by
  rcases List.append_eq_append_iff.mp h with ⟨u, hu, hy⟩ | ⟨u, hx, hs⟩
  · exact .inr ⟨u, hy, hu⟩
  · cases u with
    | nil => exact .inr ⟨[], by simpa using hs.symm, by simpa using hx.symm⟩
    | cons b u =>
      obtain ⟨rfl, rfl⟩ := List.cons.inj hs
      exact .inl ⟨u, hx, rfl⟩

/-! ## What is found -/

/-- The terminal may follow the nonterminal. -/
def Follows (g : Grammar) (s a : Nat) : Prop := ∃ t, g.follow[s]? = some t ∧ t.has a = true

theorem follows_iff {s a : Nat} (hs : s < g.nonterminals) :
    g.Follows s a ↔ ∃ b < g.nonterminals, Path (g.followEdges g.nullable) s b ∧
      (g.followSeed g.nullable g.first b).has a = true := by
  simp only [Follows, follow, List.getElem?_map, List.getElem?_range hs, Option.map_some,
    Option.some.injEq, exists_eq_left', followOf, IndexSet.has_unions, List.mem_filterMap,
    IndexSet.mem_toList, has_reachable_singleton]
  constructor
  · rintro ⟨t, ⟨b, ⟨hb, hpath⟩, ht⟩, ha⟩
    rw [List.getElem?_range hb, Option.map_some, Option.some.injEq] at ht
    exact ⟨b, hb, hpath, ht ▸ ha⟩
  · rintro ⟨b, hb, hpath, ha⟩
    exact ⟨_, ⟨b, ⟨hb, hpath⟩, by rw [List.getElem?_range hb]; rfl⟩, ha⟩

theorem edge_followEdges {s a : Nat} :
    Edge (g.followEdges g.nullable) s a ↔ s < g.nonterminals ∧
      ∃ p ∈ g.productions, p.lhs = a ∧ ∃ before rest, p.rhs = before ++ s :: rest ∧
        rest.all g.nullable.has = true := by
  simp only [Edge, followEdges, List.mem_eraseDups, List.mem_filterMap, Prod.exists]
  constructor
  · rintro ⟨a, s, rest, hm, h⟩
    split at h
    · cases h
      obtain ⟨hs, p, hp, hl, before, hr⟩ := mem_occurrences_iff.mp hm
      exact ⟨hs, p, hp, hl, before, rest, hr, ‹_›⟩
    · cases h
  · rintro ⟨hs, p, hp, hl, before, rest, hr, hn⟩
    exact ⟨a, s, rest, mem_occurrences_iff.mpr ⟨hs, p, hp, hl, before, hr⟩, if_pos hn⟩

theorem has_followSeed {s a : Nat} :
    (g.followSeed g.nullable g.first s).has a = true ↔
      s ∈ g.goalSymbols ∧ a = g.endMarker ∨ s < g.nonterminals ∧ ∃ p ∈ g.productions, ∃ before rest,
        p.rhs = before ++ s :: rest ∧ (firstOfRow g.nullable g.first rest).has a = true := by
  rw [followSeed, IndexSet.has_union, Bool.or_eq_true, IndexSet.has_unions]
  refine or_congr ?_ ⟨?_, ?_⟩
  · split
    · rw [IndexSet.has_ofList, List.mem_singleton]
      simp [List.contains_iff_mem.mp ‹_›]
    · rename_i h
      have hm : s ∉ g.goalSymbols := fun hm => h (List.contains_iff_mem.mpr hm)
      simp [IndexSet.has_empty, hm]
  · rintro ⟨t, ht, ha⟩
    obtain ⟨⟨b, c, rest⟩, hm, h⟩ := List.mem_filterMap.mp ht
    dsimp only at h
    split at h
    · cases h
      subst c
      obtain ⟨hs, p, hp, -, before, hr⟩ := mem_occurrences_iff.mp hm
      exact ⟨hs, p, hp, before, rest, hr, ha⟩
    · cases h
  · rintro ⟨hs, p, hp, before, rest, hr, ha⟩
    refine ⟨_, List.mem_filterMap.mpr ⟨(p.lhs, s, rest), ?_, if_pos rfl⟩, ha⟩
    exact mem_occurrences_iff.mpr ⟨hs, p, hp, rfl, before, hr⟩

/-- The end of the input follows a goal. -/
theorem follows_goal (hc : g.Checked) {goal : Nat} {p : Production} (hg : goal ∈ g.goals)
    (hp : g.productions[goal]? = some p) : g.Follows p.lhs g.endMarker := by
  have hl := hc.lhs_lt p (List.mem_of_getElem? hp)
  have hm : p.lhs ∈ g.goalSymbols := List.mem_filterMap.mpr ⟨goal, hg, by rw [hp]; rfl⟩
  exact (follows_iff hl).mpr ⟨p.lhs, hl, .refl, has_followSeed.mpr (.inl ⟨hm, rfl⟩)⟩

section

variable {p : Production} (hp : p ∈ g.productions) {s a : Nat} {before rest : List Nat}
  (h : p.rhs = before ++ s :: rest) (hs : s < g.nonterminals)

include hp h hs

/-- What stands behind a nonterminal follows it. -/
theorem follows_first (ha : (firstOfRow g.nullable g.first rest).has a = true) : g.Follows s a :=
  (follows_iff hs).mpr ⟨s, hs, .refl, has_followSeed.mpr (.inr ⟨hs, p, hp, before, rest, h, ha⟩)⟩

/-- What follows a left-hand side follows a nonterminal at the end of the right-hand side. -/
theorem follows_last (hc : g.Checked) (hr : rest.all g.nullable.has = true) (ha : g.Follows p.lhs a) :
    g.Follows s a := by
  obtain ⟨b, hb, hpath, hseed⟩ := (follows_iff (hc.lhs_lt p hp)).mp ha
  have hedge := edge_followEdges.mpr ⟨hs, p, hp, rfl, before, rest, h, hr⟩
  exact (follows_iff hs).mpr ⟨b, hb, .head hedge hpath, hseed⟩

end

/-- In a sentence, the terminal behind a nonterminal of a right-hand side follows the nonterminal, if the one
behind the whole follows the left-hand side. -/
theorem follows_of_yields (hc : g.Checked) {p : Production} (hp : p ∈ g.productions) {d s : Nat}
    {row word : List Nat} (h : p.rhs.drop d = s :: row) (hs : s < g.nonterminals)
    (hy : g.Yields row word) {after : List Nat} (ha : g.Follows p.lhs (after.headD g.endMarker)) :
    g.Follows s ((word ++ after).headD g.endMarker) := by
  have hr : p.rhs = p.rhs.take d ++ s :: row := by rw [← h, List.take_append_drop]
  cases word with
  | nil => exact follows_last hp hr hs hc (all_nullable_of_derives hc hy.derives) ha
  | cons a word =>
    have hrow : ∀ b ∈ row, b < g.symbols := fun b hb => hc.rhs_lt p hp b (by rw [hr]; simp [hb])
    have hlt := hy.derives.lt_symbols hc hrow a List.mem_cons_self
    exact follows_first hp hr hs
      (has_firstOfRow_of_derives hc hy.derives (hy.isTerminal a List.mem_cons_self) hlt)

/-- Only terminals follow. -/
theorem Follows.isTerminal (ht : g.nonterminals < g.symbols) {s a : Nat} (hs : s < g.nonterminals)
    (h : g.Follows s a) : g.IsTerminal a := by
  obtain ⟨b, -, -, hseed⟩ := (follows_iff hs).mp h
  rcases has_followSeed.mp hseed with ⟨-, rfl⟩ | ⟨-, p, -, before, rest, -, ha⟩
  · exact Nat.le_sub_one_of_lt ht
  · obtain ⟨_, b, _, -, -, hf⟩ := has_firstOfRow_iff.mp ha
    exact (has_first.mp hf).2.2.1

/-! ## What follows is found -/

/-- What may come to stand behind a place, when the row stands there and `E` holds of what may stand behind the
row. -/
def Behind (g : Grammar) (E : Nat → Prop) (row : List Nat) (a : Nat) : Prop :=
  (firstOfRow g.nullable g.first row).has a = true ∨ row.all g.nullable.has = true ∧ E a

namespace Behind

variable {E F : Nat → Prop} {row rest : List Nat} {a : Nat}

theorem nil_iff : g.Behind E [] a ↔ E a := by
  simp [Behind, firstOfRow, IndexSet.has_empty]

theorem append_iff : g.Behind E (row ++ rest) a ↔ g.Behind (g.Behind E rest) row a := by
  rw [Behind, Behind, Behind, has_firstOfRow_append, List.all_append, Bool.and_eq_true, and_or_left, or_assoc,
    and_assoc]

theorem mono (hEF : ∀ a, E a → F a) (h : g.Behind E row a) : g.Behind F row a :=
  h.imp_right fun ⟨hn, ha⟩ => ⟨hn, hEF a ha⟩

/-- A left-hand side loses nothing of what its right-hand side has. -/
theorem lhs (hc : g.Checked) {p : Production} (hp : p ∈ g.productions) (h : g.Behind E (p.rhs ++ rest) a) :
    g.Behind E (p.lhs :: rest) a := by
  rw [← List.singleton_append, append_iff]
  rcases append_iff.mp h with h | ⟨hn, h⟩
  · exact .inl (has_firstOfRow_cons.mpr (.inl (has_first_lhs hc hp h)))
  · exact .inr ⟨by rw [List.all_cons, has_nullable hc hp hn]; rfl, h⟩

end Behind

/-- Behind a nonterminal of a derived row stands nothing but what follows it. -/
theorem follows_of_derives (hc : g.Checked) {d : Nat} {row : List Nat} (h : g.Derives [d] row) {s a : Nat}
    {before after : List Nat} (hrow : row = before ++ s :: after) (hs : s < g.nonterminals)
    (ha : g.Behind (g.Follows d) after a) : g.Follows s a := by
  induction h generalizing s a before after with
  | refl =>
    rcases append_eq_append_cons (x := []) hrow with ⟨v, hv, -⟩ | ⟨u, hu, -⟩
    · simp at hv
    · cases u with
      | nil =>
        obtain ⟨rfl, rfl⟩ := List.cons.inj hu
        exact Behind.nil_iff.mp ha
      | cons b u => simp at hu
  | tail _ hrs ih =>
    obtain @⟨p, hp, b, c⟩ := hrs
    -- the nonterminal stands before the new phrase, in it, or behind it
    rcases append_eq_append_cons hrow with ⟨v, hbr, rfl⟩ | ⟨u, rfl, rfl⟩
    · rcases append_eq_append_cons hbr with ⟨v, rfl, rfl⟩ | ⟨u, hr, rfl⟩
      · rw [List.append_assoc, Behind.append_iff] at ha
        exact ih (List.append_assoc _ _ _) hs (Behind.append_iff.mpr (ha.mono fun _ => Behind.lhs hc hp))
      · rw [Behind.append_iff] at ha
        rcases ha with ha | ⟨hn, ha⟩
        · exact follows_first hp hr hs ha
        · exact follows_last hp hr hs hc hn (ih rfl (hc.lhs_lt p hp) ha)
    · have he : b ++ p.lhs :: (u ++ s :: after) = b ++ p.lhs :: u ++ s :: after := by simp
      exact ih he hs ha

/-! ## What is found follows -/

/-- The terminal stands directly behind the nonterminal in a row that some nonterminal derives, or it marks the end
of the input and a row derived from a goal ends with the nonterminal. -/
def Trails (g : Grammar) (s a : Nat) : Prop :=
  (∃ d < g.nonterminals, ∃ before after, g.Derives [d] (before ++ s :: a :: after)) ∨
    a = g.endMarker ∧ ∃ goal ∈ g.goalSymbols, ∃ before, g.Derives [goal] (before ++ [s])

/-- What stands behind a left-hand side stands behind the nonterminal that its right-hand side may end with. -/
theorem Trails.last {p : Production} (hp : p ∈ g.productions) {s a : Nat} {before rest : List Nat}
    (hr : p.rhs = before ++ s :: rest) (hn : rest.all g.nullable.has = true) (h : g.Trails p.lhs a) :
    g.Trails s a := by
  have hrest : g.Derives rest [] := derives_nil_of_all (fun _ => derives_nil_of_nullable) hn
  have hlhs : g.Derives [p.lhs] (before ++ [s]) := by
    refine (Derives.production hp).trans ?_
    rw [hr]
    simpa using hrest.between (before ++ [s]) []
  rcases h with ⟨d, hd, u, v, h⟩ | ⟨ha, goal, hg, u, h⟩
  · refine .inl ⟨d, hd, u ++ before, v, h.trans ?_⟩
    simpa using hlhs.between u (a :: v)
  · refine .inr ⟨ha, goal, hg, u ++ before, h.trans ?_⟩
    simpa using hlhs.between u []

theorem Follows.trails (hc : g.Checked) {s a : Nat} (hs : s < g.nonterminals) (h : g.Follows s a) :
    g.Trails s a := by
  obtain ⟨b, -, hpath, hseed⟩ := (follows_iff hs).mp h
  clear hs h
  induction hpath using Relation.ReflTransGen.head_induction_on with
  | refl =>
    rcases has_followSeed.mp hseed with ⟨hg, ha⟩ | ⟨-, p, hp, before, rest, hr, ha⟩
    · exact .inr ⟨ha, b, hg, [], .refl⟩
    · obtain ⟨rest', hrest⟩ := exists_derives_of_firstOfRow ha
      refine .inl ⟨p.lhs, hc.lhs_lt p hp, before, rest', (Derives.production hp).trans ?_⟩
      rw [hr]
      simpa using hrest.between (before ++ [b]) []
  | head hedge _ ih =>
    obtain ⟨-, p, hp, rfl, before, rest, hr, hn⟩ := edge_followEdges.mp hedge
    exact ih.last hp hr hn

theorem Trails.follows (hc : g.Checked) {s a : Nat} (hs : s < g.nonterminals) (ht : g.IsTerminal a)
    (h : g.Trails s a) : g.Follows s a := by
  rcases h with ⟨d, hd, before, after, h⟩ | ⟨rfl, goal, hg, before, h⟩
  · have ha := h.lt_symbols hc (by simpa using Nat.lt_of_lt_of_le hd hc.nonterminals_le) a (by simp)
    refine follows_of_derives hc h rfl hs (.inl ?_)
    exact has_firstOfRow_cons.mpr (.inl (has_first.mpr ⟨ha, .refl, ht, ha⟩))
  · obtain ⟨number, hm, he⟩ := List.mem_filterMap.mp hg
    obtain ⟨p, hp, rfl⟩ := Option.map_eq_some_iff.mp he
    exact follows_of_derives hc h rfl hs (Behind.nil_iff.mpr (follows_goal hc hm hp))

/-- What follows a nonterminal are the terminals that stand directly behind it in a row that some nonterminal derives,
and the end of the input if a row that a goal derives ends with the nonterminal. -/
theorem exists_follow_iff (hc : g.Checked) (ht : g.nonterminals < g.symbols) {s : Nat} (hs : s < g.nonterminals) :
    ∃ found, g.follow[s]? = some found ∧ ∀ a, found.has a = true ↔ g.IsTerminal a ∧
      ((∃ d < g.nonterminals, ∃ before after, g.Derives [d] (before ++ s :: a :: after)) ∨
        a = g.endMarker ∧ ∃ goal ∈ g.goalSymbols, ∃ before, g.Derives [goal] (before ++ [s])) := by
  obtain ⟨found, hfound⟩ : ∃ found, g.follow[s]? = some found := by
    rw [follow, List.getElem?_map, List.getElem?_range hs]
    exact ⟨_, rfl⟩
  have hfollows : ∀ a, found.has a = true ↔ g.Follows s a := by
    intro a
    rw [Follows, hfound]
    simp
  refine ⟨found, hfound, fun a => ?_⟩
  rw [hfollows]
  exact ⟨fun h => ⟨h.isTerminal ht hs, h.trails hc hs⟩, fun ⟨ha, h⟩ => Trails.follows hc hs ha h⟩

end Formula.LR.Grammar
