import Mathlib.Logic.Relation
import Mathlib.Tactic.ByContra
import Formula.LR.Reach

/-!
# Reachability is complete

`reachable` finds exactly the nodes at the end of a path (`has_reachable`). A node that is found has a path
by induction on the expansions. For the converse a set that an expansion does not change contains every path
that starts in it (`has_of_path`), and the expansions stop at such a set before the fuel runs out: each one
before finds the end of an edge that was not found (`unfound_expand_lt`).
-/

namespace Formula.LR

/-- An edge leads from the first node to the second. -/
def Edge (edges : List (Nat × Nat)) (a b : Nat) : Prop := (a, b) ∈ edges

/-- A row of edges leads from the first node to the second. -/
abbrev Path (edges : List (Nat × Nat)) : Nat → Nat → Prop := Relation.ReflTransGen (Edge edges)

/-- A larger set has a member that the smaller one lacks. -/
theorem IndexSet.exists_new {s t : IndexSet} (hst : ∀ i, s.has i = true → t.has i = true) (h : t ≠ s) :
    ∃ i, s.has i = false ∧ t.has i = true := by
  by_contra hn
  refine h (IndexSet.ext fun i => Bool.eq_iff_iff.mpr ⟨fun ht => ?_, hst i⟩)
  by_contra hs
  exact hn ⟨i, Bool.eq_false_iff.mpr hs, ht⟩

/-- A stricter filter that drops an element leaves fewer. -/
theorem length_filter_lt {α : Type} {l : List α} {p q : α → Bool} (hqp : ∀ x ∈ l, q x = true → p x = true)
    {x : α} (hx : x ∈ l) (hp : p x = true) (hq : q x = false) :
    (l.filter q).length < (l.filter p).length := by
  have e : l.filter q = (l.filter p).filter q := by
    rw [List.filter_filter]
    exact List.filter_congr fun y hy => by
      cases hqy : q y
      · rfl
      · simp [hqp y hy hqy]
  rw [e, List.length_filter_lt_length_iff_exists]
  exact ⟨x, List.mem_filter.mpr ⟨hx, hp⟩, by simp [hq]⟩

variable {edges : List (Nat × Nat)} {s : IndexSet}

theorem has_expand {b : Nat} :
    (expand edges s).has b = true ↔ s.has b = true ∨ ∃ a, Edge edges a b ∧ s.has a = true := by
  rw [expand, IndexSet.has_union, Bool.or_eq_true, IndexSet.has_ofList]
  refine or_congr_right ⟨fun h => ?_, fun ⟨a, he, ha⟩ => ?_⟩
  · obtain ⟨⟨a, b⟩, hm, rfl⟩ := List.mem_map.mp h
    exact ⟨a, (List.mem_filter.mp hm).1, (List.mem_filter.mp hm).2⟩
  · exact List.mem_map.mpr ⟨(a, b), List.mem_filter.mpr ⟨he, ha⟩, rfl⟩

/-- What is found lies at the end of a path. -/
theorem path_of_expandAll {fuel b : Nat} (h : (expandAll edges fuel s).has b = true) :
    ∃ a, s.has a = true ∧ Path edges a b := by
  induction fuel generalizing s with
  | zero => exact ⟨b, h, .refl⟩
  | succ fuel ih =>
    rw [expandAll] at h
    split at h
    · exact ⟨b, h, .refl⟩
    · obtain ⟨a, ha, hab⟩ := ih h
      rcases has_expand.mp ha with ha | ⟨c, hca, hc⟩
      · exact ⟨a, ha, hab⟩
      · exact ⟨c, hc, .head hca hab⟩

theorem has_expandAll {fuel b : Nat} (h : s.has b = true) : (expandAll edges fuel s).has b = true := by
  induction fuel generalizing s with
  | zero => exact h
  | succ fuel ih =>
    rw [expandAll]
    split
    · exact h
    · exact ih (has_expand.mpr (.inl h))

/-! ## The last expansion -/

/-- The edges whose end was not found. -/
def unfound (edges : List (Nat × Nat)) (s : IndexSet) : List (Nat × Nat) :=
  edges.filter fun e => !s.has e.2

theorem unfound_expand_lt (h : expand edges s ≠ s) :
    (unfound edges (expand edges s)).length < (unfound edges s).length := by
  obtain ⟨b, hs, he⟩ := IndexSet.exists_new (fun i hi => has_expand.mpr (.inl hi)) h
  rcases has_expand.mp he with hb | ⟨a, hab, -⟩
  · simp [hs] at hb
  · refine length_filter_lt (fun e _ h => ?_) hab (by simp [hs]) (by simp [he])
    rw [Bool.not_eq_true'] at h ⊢
    by_contra hn
    rw [has_expand.mpr (.inl (Bool.not_eq_false _ ▸ hn))] at h
    exact Bool.noConfusion h

/-- With more fuel than edges to find, the last expansion changes nothing. -/
theorem expand_expandAll {fuel : Nat} (h : (unfound edges s).length < fuel) :
    expand edges (expandAll edges fuel s) = expandAll edges fuel s := by
  induction fuel generalizing s with
  | zero => omega
  | succ fuel ih =>
    rw [expandAll]
    split
    · assumption
    · have := unfound_expand_lt ‹_›
      exact ih (by omega)

/-- A set that no expansion changes contains every path that starts in it. -/
theorem has_of_path (hs : expand edges s = s) {a b : Nat} (ha : s.has a = true) (h : Path edges a b) :
    s.has b = true := by
  induction h with
  | refl => exact ha
  | tail _ hbc ih => rw [← hs]; exact has_expand.mpr (.inr ⟨_, hbc, ih⟩)

/-- The search comes to rest. -/
theorem expand_reachable : expand edges (reachable edges s) = reachable edges s := by
  have hl : (unfound edges s).length ≤ edges.length := List.length_filter_le ..
  exact expand_expandAll (by omega)

/-- The nodes that are found are those at the end of a path. -/
theorem has_reachable {b : Nat} :
    (reachable edges s).has b = true ↔ ∃ a, s.has a = true ∧ Path edges a b := by
  refine ⟨path_of_expandAll, fun ⟨a, ha, hab⟩ => ?_⟩
  exact has_of_path expand_reachable (has_expandAll ha) hab

theorem has_reachable_singleton {a b : Nat} :
    (reachable edges (.ofList [a])).has b = true ↔ Path edges a b := by
  simp [has_reachable, IndexSet.has_ofList]

end Formula.LR
