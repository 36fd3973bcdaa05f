import Formula.LR.Grammar

/-!
# Grammars that pass the checks

`Checked` says what the checks of a grammar establish, in one place (`checked_of_build`), and `Augmented`
adds what the theory of the parser asks of a grammar besides: there is a terminal, no goal is named twice,
and the left-hand side of a goal stands on no right-hand side.
-/

namespace Formula.LR.Grammar

/-- What the checks establish: left-hand sides are nonterminals, right-hand sides are made of symbols, and a
goal has one symbol on the right. -/
structure Checked (g : Grammar) : Prop where
  nonterminals_le : g.nonterminals ≤ g.symbols
  lhs_lt : ∀ p ∈ g.productions, p.lhs < g.nonterminals
  rhs_lt : ∀ p ∈ g.productions, ∀ s ∈ p.rhs, s < g.symbols
  goal : ∀ n ∈ g.goals, ∃ p x, g.productions[n]? = some p ∧ p.rhs = [x]

/-- A grammar that passes the checks and whose goals stand apart from the rest of it. -/
structure Augmented (g : Grammar) : Prop where
  build : g.build = .ok g
  terminal : g.nonterminals < g.symbols
  goals_nodup : g.goals.Nodup
  fresh : ∀ p ∈ g.productions, ∀ s ∈ p.rhs, s ∉ g.goalSymbols

/-! ## What the checks establish -/

theorem bind_eq_ok {ε α β : Type} {x : Except ε α} {f : α → Except ε β} {b : β} (h : x >>= f = .ok b) :
    ∃ a, x = .ok a ∧ f a = .ok b := by
  cases x with
  | error e => cases h
  | ok a => exact ⟨a, rfl, h⟩

/-- A check of all elements that passes has passed for each. -/
theorem forM_eq_ok {α ε : Type} {f : α → Except ε Unit} {l : List α} (h : l.forM f = .ok ()) :
    ∀ x ∈ l, f x = .ok () := by
  induction l with
  | nil => simp
  | cons x l ih =>
    obtain ⟨⟨⟩, hx, hl⟩ := bind_eq_ok (x := f x) (f := fun _ => l.forM f) h
    intro y hy
    rcases List.mem_cons.mp hy with rfl | hy
    · exact hx
    · exact ih hl y hy

variable {g : Grammar}

theorem lhs_lt_of_checkProduction {n : Nat} {p : Production} (h : g.checkProduction n p = .ok ()) :
    p.lhs < g.nonterminals ∧ ∀ s ∈ p.rhs, s < g.symbols := by
  rw [checkProduction] at h
  split at h
  · cases h
  · rename_i hl
    refine ⟨by omega, fun s hs => ?_⟩
    split at h
    · cases h
    · rename_i hf
      have := List.find?_eq_none.mp hf s hs
      simpa using this

theorem rhs_of_checkGoal {n : Nat} (h : g.checkGoal n = .ok ()) :
    ∃ p x, g.productions[n]? = some p ∧ p.rhs = [x] := by
  rw [checkGoal] at h
  split at h
  · exact ⟨_, _, ‹_›, rfl⟩
  · cases h

theorem checked_of_build {g' : Grammar} (h : g.build = .ok g') : g.Checked := by
  obtain ⟨⟨⟩, hc, -⟩ := bind_eq_ok h
  unfold check at hc
  dsimp only at hc
  split at hc
  · cases hc
  · rename_i hn
    obtain ⟨⟨⟩, hp, hc⟩ := bind_eq_ok hc
    split at hc
    · cases hc
    · obtain ⟨⟨⟩, hg, -⟩ := bind_eq_ok hc
      have hp' : ∀ p ∈ g.productions, p.lhs < g.nonterminals ∧ ∀ s ∈ p.rhs, s < g.symbols := by
        intro p hm
        obtain ⟨i, hi⟩ := List.mem_iff_getElem?.mp hm
        have hz : (p, i) ∈ g.productions.zipIdx := by
          rw [List.mem_zipIdx_iff_getElem?]
          exact hi
        exact lhs_lt_of_checkProduction (forM_eq_ok hp _ hz)
      exact ⟨by omega, fun p hm => (hp' p hm).1, fun p hm => (hp' p hm).2,
        fun n hm => rhs_of_checkGoal (forM_eq_ok hg n hm)⟩

theorem Augmented.checked (ha : g.Augmented) : g.Checked := checked_of_build ha.build

end Formula.LR.Grammar
