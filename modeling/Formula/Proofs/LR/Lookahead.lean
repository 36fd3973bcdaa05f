import Formula.LR.Lookahead
import Formula.Proofs.LR.Derivation
import Formula.Proofs.LR.Grammar
import Formula.Proofs.LR.Reach

/-!
# Nullable symbols and first terminals

A symbol is found to be nullable exactly if it derives the empty row (`has_nullable_iff`), and a terminal is found to
be a first terminal of a symbol exactly if the symbol derives a row that begins with it (`exists_first_iff`).

What is found is derived: for nullable symbols by induction on the rounds (`derives_nil_of_nullable`), for first
terminals by induction on the path in the graph of first symbols (`exists_derives_of_path`). For the converse a
derivation is followed from its end to its start. A row that turns into one of nullable symbols is made of nullable
symbols itself (`all_nullable_of_derives`), and no step to the front loses a first terminal
(`has_firstOfRow_of_derives`). The second rests on the rounds having come to rest (`nullableStep_nullable`).
-/

namespace Formula.LR.Grammar

variable {g : Grammar}

/-! ## Symbols that derive nothing -/

theorem has_nullableStep {known : IndexSet} {a : Nat} :
    (g.nullableStep known).has a = true ↔
      known.has a = true ∨ ∃ p ∈ g.productions, p.rhs.all known.has = true ∧ p.lhs = a := by
  rw [nullableStep, IndexSet.has_union, Bool.or_eq_true, IndexSet.has_ofList]
  simp only [List.mem_map, List.mem_filter, and_assoc]

/-- The nonterminals that are not known to be nullable. -/
def unknown (g : Grammar) (known : IndexSet) : List Nat :=
  (List.range g.nonterminals).filter fun a => !known.has a

theorem unknown_nullableStep_lt (hc : g.Checked) {known : IndexSet} (h : g.nullableStep known ≠ known) :
    (g.unknown (g.nullableStep known)).length < (g.unknown known).length := by
  obtain ⟨a, hk, hs⟩ := IndexSet.exists_new (fun a ha => has_nullableStep.mpr (.inl ha)) h
  rcases has_nullableStep.mp hs with ha | ⟨p, hp, -, rfl⟩
  · exact absurd ha (Bool.eq_false_iff.mp hk)
  · refine length_filter_lt (fun b _ hb => ?_) (List.mem_range.mpr (hc.lhs_lt p hp)) (by simp [hk])
      (by simp [hs])
    rw [Bool.not_eq_true'] at hb ⊢
    exact Bool.eq_false_iff.mpr fun hkb =>
      Bool.eq_false_iff.mp hb (has_nullableStep.mpr (.inl hkb))

/-- Either the rounds have come to rest, or each of them has found something. -/
theorem nullableStep_repeat (hc : g.Checked) (rounds : Nat) (known : IndexSet) :
    g.nullableStep (Nat.repeat g.nullableStep rounds known) = Nat.repeat g.nullableStep rounds known ∨
      (g.unknown (Nat.repeat g.nullableStep rounds known)).length + rounds ≤
        (g.unknown known).length := by
  induction rounds with
  | zero => exact .inr (Nat.le_refl _)
  | succ n ih =>
    rw [show Nat.repeat g.nullableStep (n + 1) known =
      g.nullableStep (Nat.repeat g.nullableStep n known) from rfl]
    by_cases h : g.nullableStep (Nat.repeat g.nullableStep n known) = Nat.repeat g.nullableStep n known
    · exact .inl (by rw [h, h])
    · have := unknown_nullableStep_lt hc h
      have := ih.resolve_left h
      exact .inr (by omega)

/-- The last round finds nothing new. -/
theorem nullableStep_nullable (hc : g.Checked) : g.nullableStep g.nullable = g.nullable := by
  by_contra hne
  have hlt := unknown_nullableStep_lt hc hne
  have hle := (nullableStep_repeat hc g.nonterminals .empty).resolve_left hne
  have : (g.unknown .empty).length ≤ g.nonterminals := by
    simpa [unknown] using List.length_filter_le (fun a => !IndexSet.empty.has a) (List.range g.nonterminals)
  rw [nullable] at hlt
  omega

/-- A left-hand side is nullable when all symbols on the right are. -/
theorem has_nullable (hc : g.Checked) {p : Production} (hp : p ∈ g.productions)
    (h : p.rhs.all g.nullable.has = true) : g.nullable.has p.lhs = true := by
  rw [← nullableStep_nullable hc]
  exact has_nullableStep.mpr (.inr ⟨p, hp, h, rfl⟩)

/-- A row that derives the empty row is made of nullable symbols. -/
theorem all_nullable_of_derives (hc : g.Checked) {row : List Nat} (h : g.Derives row []) :
    row.all g.nullable.has = true := by
  induction h using Relation.ReflTransGen.head_induction_on with
  | refl => rfl
  | head hrs _ ih =>
    obtain ⟨hp, before, after⟩ := hrs
    simp only [List.all_append, List.all_cons, Bool.and_eq_true] at ih ⊢
    exact ⟨ih.1.1, has_nullable hc hp ih.1.2, ih.2⟩

/-- A row of symbols that derive the empty row derives it as a whole. -/
theorem derives_nil_of_all {known : IndexSet} (h : ∀ a, known.has a = true → g.Derives [a] []) {row : List Nat}
    (hr : row.all known.has = true) : g.Derives row [] := by
  induction row with
  | nil => exact .refl
  | cons a row ih =>
    rw [List.all_cons, Bool.and_eq_true] at hr
    exact Derives.append (h a hr.1) (ih hr.2)

/-- What the rounds have found derives the empty row. -/
theorem derives_nil_of_repeat (rounds : Nat) {a : Nat}
    (h : (Nat.repeat g.nullableStep rounds .empty).has a = true) : g.Derives [a] [] := by
  induction rounds generalizing a with
  | zero =>
    rw [show Nat.repeat g.nullableStep 0 .empty = .empty from rfl, IndexSet.has_empty] at h
    cases h
  | succ n ih =>
    rcases has_nullableStep.mp h with h | ⟨p, hp, hr, rfl⟩
    · exact ih h
    · exact (Derives.production hp).trans (derives_nil_of_all (fun b hb => ih hb) hr)

theorem derives_nil_of_nullable {a : Nat} (h : g.nullable.has a = true) : g.Derives [a] [] :=
  derives_nil_of_repeat _ h

/-! ## First terminals -/

/-- A production leads to the symbols that only nullable ones stand before. -/
theorem mem_leads_iff {nullable : IndexSet} {lhs a b : Nat} {row : List Nat} :
    (a, b) ∈ leads nullable lhs row ↔
      a = lhs ∧ ∃ before after, row = before ++ b :: after ∧ before.all nullable.has = true := by
  induction row with
  | nil => simp [leads]
  | cons s rest ih =>
    rw [leads, List.mem_cons, Prod.mk.injEq]
    constructor
    · rintro (⟨rfl, rfl⟩ | h)
      · exact ⟨rfl, [], rest, rfl, rfl⟩
      · split at h
        · obtain ⟨rfl, before, after, rfl, hn⟩ := ih.mp h
          exact ⟨rfl, s :: before, after, rfl, by simp [*]⟩
        · cases h
    · rintro ⟨rfl, before, after, he, hn⟩
      cases before with
      | nil =>
        obtain ⟨rfl, -⟩ := List.cons.inj he
        exact .inl ⟨rfl, rfl⟩
      | cons c before =>
        obtain ⟨rfl, rfl⟩ := List.cons.inj he
        rw [List.all_cons, Bool.and_eq_true] at hn
        rw [if_pos hn.1]
        exact .inr (ih.mpr ⟨rfl, before, after, rfl, hn.2⟩)

theorem has_firstOfRow_cons {nullable : IndexSet} {first : List IndexSet} {s a : Nat} {rest : List Nat} :
    (firstOfRow nullable first (s :: rest)).has a = true ↔
      (first[s]?.getD .empty).has a = true ∨
        nullable.has s = true ∧ (firstOfRow nullable first rest).has a = true := by
  rw [firstOfRow]
  split <;> simp [*, IndexSet.has_union]

theorem has_firstOfRow_append {nullable : IndexSet} {first : List IndexSet} {a : Nat} {row rest : List Nat} :
    (firstOfRow nullable first (row ++ rest)).has a = true ↔
      (firstOfRow nullable first row).has a = true ∨
        row.all nullable.has = true ∧ (firstOfRow nullable first rest).has a = true := by
  induction row with
  | nil => simp [firstOfRow, IndexSet.has_empty]
  | cons s row ih =>
    rw [List.cons_append, has_firstOfRow_cons, has_firstOfRow_cons, ih, List.all_cons, Bool.and_eq_true, and_or_left,
      or_assoc, and_assoc]

/-- A first terminal of a row is one of a symbol that only nullable ones stand before. -/
theorem has_firstOfRow_iff {nullable : IndexSet} {first : List IndexSet} {a : Nat} {row : List Nat} :
    (firstOfRow nullable first row).has a = true ↔
      ∃ before s after, row = before ++ s :: after ∧ before.all nullable.has = true ∧
        (first[s]?.getD .empty).has a = true := by
  constructor
  · induction row with
    | nil => simp [firstOfRow, IndexSet.has_empty]
    | cons s rest ih =>
      intro h
      rcases has_firstOfRow_cons.mp h with h | ⟨hs, h⟩
      · exact ⟨[], s, rest, rfl, rfl, h⟩
      · obtain ⟨before, b, after, rfl, hn, hf⟩ := ih h
        exact ⟨s :: before, b, after, rfl, by simp [hs, hn], hf⟩
  · rintro ⟨before, s, after, rfl, hn, hf⟩
    exact has_firstOfRow_append.mpr (.inr ⟨hn, has_firstOfRow_cons.mpr (.inl hf)⟩)

theorem has_first {s a : Nat} :
    (g.first[s]?.getD .empty).has a = true ↔
      s < g.symbols ∧ Path (g.firstEdges g.nullable) s a ∧ g.IsTerminal a ∧ a < g.symbols := by
  rw [first, List.getElem?_map]
  by_cases hs : s < g.symbols
  · rw [List.getElem?_range hs, Option.map_some, Option.getD_some, firstOf, IndexSet.has_inter,
      Bool.and_eq_true, has_reachable_singleton, terminals, IndexSet.has_ofList, List.mem_filter,
      List.mem_range, decide_eq_true_eq]
    exact ⟨fun ⟨hp, ha, ht⟩ => ⟨hs, hp, ht, ha⟩, fun ⟨_, hp, ht, ha⟩ => ⟨hp, ha, ht⟩⟩
  · rw [List.getElem?_eq_none (by simpa using hs), Option.map_none, Option.getD_none,
      IndexSet.has_empty]
    simp [hs]

/-- A first terminal of a right-hand side is one of the left-hand side. -/
theorem has_first_lhs (hc : g.Checked) {p : Production} (hp : p ∈ g.productions) {a : Nat}
    (h : (firstOfRow g.nullable g.first p.rhs).has a = true) :
    (g.first[p.lhs]?.getD .empty).has a = true := by
  obtain ⟨before, s, after, hr, hn, hf⟩ := has_firstOfRow_iff.mp h
  obtain ⟨-, hpath, ht, ha⟩ := has_first.mp hf
  have he : Edge (g.firstEdges g.nullable) p.lhs s :=
    List.mem_eraseDups.mpr (List.mem_flatMap.mpr ⟨p, hp, mem_leads_iff.mpr ⟨rfl, before, after, hr, hn⟩⟩)
  exact has_first.mpr ⟨Nat.lt_of_lt_of_le (hc.lhs_lt p hp) hc.nonterminals_le, .head he hpath, ht, ha⟩

/-- The terminal that a derived row begins with is a first terminal of the row. -/
theorem has_firstOfRow_of_derives (hc : g.Checked) {row rest : List Nat} {a : Nat}
    (h : g.Derives row (a :: rest)) (ht : g.IsTerminal a) (ha : a < g.symbols) :
    (firstOfRow g.nullable g.first row).has a = true := by
  induction h using Relation.ReflTransGen.head_induction_on with
  | refl => exact has_firstOfRow_cons.mpr (.inl (has_first.mpr ⟨ha, .refl, ht, ha⟩))
  | head hrs _ ih =>
    obtain ⟨hp, before, after⟩ := hrs
    rw [List.append_assoc, has_firstOfRow_append, has_firstOfRow_append] at ih
    rw [has_firstOfRow_append, has_firstOfRow_cons]
    rcases ih with h | ⟨hb, h | ⟨hr, h⟩⟩
    · exact .inl h
    · exact .inr ⟨hb, .inl (has_first_lhs hc hp h)⟩
    · exact .inr ⟨hb, .inr ⟨has_nullable hc hp hr, h⟩⟩

/-- A symbol derives a row that begins with what its productions lead to. -/
theorem exists_derives_of_path {s a : Nat} (h : Path (g.firstEdges g.nullable) s a) :
    ∃ rest, g.Derives [s] (a :: rest) := by
  induction h using Relation.ReflTransGen.head_induction_on with
  | refl => exact ⟨[], .refl⟩
  | @head s b hsb _ ih =>
    obtain ⟨rest, ih⟩ := ih
    obtain ⟨p, hp, hl⟩ := List.mem_flatMap.mp (List.mem_eraseDups.mp hsb)
    obtain ⟨rfl, before, after, hr, hn⟩ := mem_leads_iff.mp hl
    have hbefore : g.Derives before [] := derives_nil_of_all (fun _ => derives_nil_of_nullable) hn
    refine ⟨rest ++ after, (Derives.production hp).trans ?_⟩
    rw [hr]
    exact Derives.append hbefore (Derives.append ih .refl)

/-- A row derives one that begins with any of its first terminals. -/
theorem exists_derives_of_firstOfRow {row : List Nat} {a : Nat}
    (h : (firstOfRow g.nullable g.first row).has a = true) : ∃ rest, g.Derives row (a :: rest) := by
  obtain ⟨before, s, after, rfl, hn, hf⟩ := has_firstOfRow_iff.mp h
  obtain ⟨-, hpath, -, -⟩ := has_first.mp hf
  obtain ⟨rest, hd⟩ := exists_derives_of_path hpath
  have hbefore : g.Derives before [] := derives_nil_of_all (fun _ => derives_nil_of_nullable) hn
  exact ⟨rest ++ after, Derives.append hbefore (Derives.append hd .refl)⟩

/-- The nullable symbols are those that derive the empty row. -/
theorem has_nullable_iff (hc : g.Checked) {y : Nat} : g.nullable.has y = true ↔ g.Derives [y] [] := by
  refine ⟨derives_nil_of_nullable, fun h => ?_⟩
  have := all_nullable_of_derives hc h
  rwa [List.all_cons, List.all_nil, Bool.and_true] at this

/-- The first terminals of a symbol are those that a row derived from it may begin with. -/
theorem exists_first_iff (hc : g.Checked) {y : Nat} (hy : y < g.symbols) :
    ∃ s, g.first[y]? = some s ∧
      ∀ t, s.has t = true ↔ g.IsTerminal t ∧ ∃ rest, g.Derives [y] (t :: rest) := by
  obtain ⟨s, hs⟩ : ∃ s, g.first[y]? = some s := by
    rw [first, List.getElem?_map, List.getElem?_range hy]
    exact ⟨_, rfl⟩
  have hrow : ∀ t, (firstOfRow g.nullable g.first [y]).has t = true ↔ s.has t = true := by
    intro t
    rw [has_firstOfRow_cons, hs, Option.getD_some]
    simp [firstOfRow, IndexSet.has_empty]
  refine ⟨s, hs, fun t => ⟨fun h => ⟨?_, exists_derives_of_firstOfRow ((hrow t).mpr h)⟩, fun ⟨ht, rest, h⟩ => ?_⟩⟩
  · have hf : (g.first[y]?.getD .empty).has t = true := by rwa [hs, Option.getD_some]
    exact (has_first.mp hf).2.2.1
  · have hlt := h.lt_symbols hc (by simpa using hy) t List.mem_cons_self
    exact (hrow t).mp (has_firstOfRow_of_derives hc h ht hlt)

end Formula.LR.Grammar
