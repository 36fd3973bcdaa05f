import Formula.Proofs.LR.Saturation

/-!
# First and following terminals

What the rounds over the productions collect, for every grammar that passes the checks. They come to an end, and then
the nullable symbols and the first terminals are told by what a symbol derives (`nullable_and_first_iff`), and the
following terminals by the rows that a nonterminal stands in (`follow_iff`). The sets are the ones that the tables are
made with: those that are found in the graphs of first symbols and of last nonterminals, where a search has come to
rest as well.
-/

namespace Formula.LR.Grammar

variable {g : Grammar}

/-- The rounds that collect first terminals come to an end, with the sets that the searches come to rest with. The
nullable symbols are those that derive the empty row, and the first terminals of a symbol those that a row derived from
it may begin with. -/
theorem nullable_and_first_iff (hb : g.build = .ok g) {y : Nat} (hy : y < g.symbols) :
    (g.nullableStep g.nullable = g.nullable ∧ ∀ s, expand (g.firstEdges g.nullable)
      (reachable (g.firstEdges g.nullable) s) = reachable (g.firstEdges g.nullable) s) ∧
    (∃ bound, ∀ rounds ≥ bound, ∃ f, firstSets g.encoded g.nonterminals g.symbols rounds = some f ∧
      f.first = g.first ∧ f.nullable = (List.range g.symbols).map g.nullable.has) ∧
    (g.nullable.has y = true ↔ g.Derives [y] []) ∧
    ∃ s, g.first[y]? = some s ∧
      ∀ t, s.has t = true ↔ g.IsTerminal t ∧ ∃ rest, g.Derives [y] (t :: rest) := by
  have hc := checked_of_build hb
  refine ⟨⟨nullableStep_nullable hc, fun s => expand_reachable⟩, ⟨(FirstSets.facts g).length + 1, fun rounds hr => ?_⟩,
    has_nullable_iff hc, exists_first_iff hc hy⟩
  obtain ⟨f, hf, hsat⟩ := exists_firstSets hc hr
  exact ⟨f, hf, hsat.first_eq, hsat.nullable_eq⟩

/-- Rows of signed marks, in which marks, signs and whole rows may vanish, and a nonterminal of which no text is
ever made. -/
def vanishing : Grammar where
  labels := ["Goal", "Row", "Sign", "Mark", "Void", "x", "y", "end"]
  nonterminals := 5
  productions := [⟨0, [1], none⟩, ⟨1, [1, 2, 3, 5], none⟩, ⟨1, [2, 3], none⟩, ⟨2, [3], none⟩, ⟨3, [6], none⟩,
    ⟨3, [], none⟩, ⟨4, [4, 5], none⟩]
  goals := [0]
  precedences := []

/-- A row may vanish, and it may begin with the `x` that is behind everything else; the last nonterminal begins
with nothing. -/
theorem nullable_and_first_vanishing :
    vanishing.Derives [1] [] ∧ (∃ rest, vanishing.Derives [1] (5 :: rest)) ∧
      ¬ ∃ rest, vanishing.Derives [4] (5 :: rest) := by
  obtain ⟨-, -, hnullable, s, hs, hfirst⟩ := nullable_and_first_iff (g := vanishing) (y := 1) rfl (by decide)
  obtain ⟨-, -, -, v, hv, hvoid⟩ := nullable_and_first_iff (g := vanishing) (y := 4) rfl (by decide)
  have hs' : vanishing.first[1]? = some (.ofList [5, 6]) := by decide
  have hv' : vanishing.first[4]? = some .empty := by decide
  obtain rfl := Option.some.inj (hs.symm.trans hs')
  obtain rfl := Option.some.inj (hv.symm.trans hv')
  refine ⟨hnullable.mp (by decide), ((hfirst 5).mp (by decide)).2, fun h => ?_⟩
  exact absurd ((hvoid 5).mpr ⟨by decide, h⟩) (by decide)

/-- The rounds that collect following terminals come to an end, once those for first terminals have, with the sets that
the search comes to rest with. A nonterminal is followed by the terminals that stand directly behind it in a row that
some nonterminal derives, and by the end of the input if a row that a goal derives ends with the nonterminal. -/
theorem follow_iff (hb : g.build = .ok g) (ht : g.nonterminals < g.symbols) {s : Nat} (hs : s < g.nonterminals) :
    (∀ known, expand (g.followEdges g.nullable) (reachable (g.followEdges g.nullable) known) =
      reachable (g.followEdges g.nullable) known) ∧
    (∃ bound, ∀ rounds ≥ bound, ∃ f, firstSets g.encoded g.nonterminals g.symbols rounds = some f ∧
      followSets g.encoded g.nonterminals g.symbols g.goals rounds f = some g.follow) ∧
    ∃ found, g.follow[s]? = some found ∧ ∀ a, found.has a = true ↔ g.IsTerminal a ∧
      ((∃ d < g.nonterminals, ∃ before after, g.Derives [d] (before ++ s :: a :: after)) ∨
        a = g.endMarker ∧ ∃ goal ∈ g.goalSymbols, ∃ before, g.Derives [goal] (before ++ [s])) := by
  have hc := checked_of_build hb
  refine ⟨fun _ => expand_reachable, ⟨(FirstSets.facts g).length + (FollowSets.facts g).length + 1, fun rounds hr => ?_⟩,
    exists_follow_iff hc ht hs⟩
  obtain ⟨f, hf, hsat⟩ := exists_firstSets hc (show (FirstSets.facts g).length < rounds by omega)
  exact ⟨f, hf, followSets_eq hc (Nat.zero_lt_of_lt hs) hsat (by omega)⟩

/-- The sign of a row may stand directly before the `x` behind its mark, and no text ends with the nonterminal that
no goal leads to. -/
theorem follow_vanishing :
    (∃ d < 5, ∃ before after, vanishing.Derives [d] (before ++ 2 :: 5 :: after)) ∧
      ¬ ∃ goal ∈ vanishing.goalSymbols, ∃ before, vanishing.Derives [goal] (before ++ [4]) := by
  obtain ⟨-, -, s, hs, hsign⟩ := follow_iff (g := vanishing) (s := 2) rfl (by decide) (by decide)
  obtain ⟨-, -, v, hv, hvoid⟩ := follow_iff (g := vanishing) (s := 4) rfl (by decide) (by decide)
  have hs' : vanishing.follow[2]? = some (.ofList [5, 6, 7]) := by decide
  have hv' : vanishing.follow[4]? = some (.ofList [5]) := by decide
  obtain rfl := Option.some.inj (hs.symm.trans hs')
  obtain rfl := Option.some.inj (hv.symm.trans hv')
  refine ⟨((hsign 5).mp (by decide)).2.resolve_right ?_, fun h => ?_⟩
  · rintro ⟨h, -⟩
    exact absurd h (by decide)
  · exact absurd ((hvoid 7).mpr ⟨by decide, .inr ⟨rfl, h⟩⟩) (by decide)

end Formula.LR.Grammar
