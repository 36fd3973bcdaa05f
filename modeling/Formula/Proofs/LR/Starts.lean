import Mathlib.Data.Finset.Card
import Formula.Proofs.LR.Collection

/-!
# The states that parsing starts in

The start of a goal is looked up under the number of the goal, but states are numbered as they are found, each of them
once. A goal whose start is that of an earlier goal brings no new state, and from there on the numbers of goals run
ahead of those of their starts. Two goals share their start if they are the same, or if each of them may begin where
the other one starts (`closure_singleton_eq_iff`), by left recursion from one to the other and back.

`startState_iff` says for every grammar that passes the checks which goals find their start under their own number, and
`startState_marked` is a goal that does not.
-/

namespace Formula.LR

/-! ## The numbers of what is new -/

/-- As many states are appended to an empty list as there are different ones. -/
theorem length_appendNew (l : List State) : (appendNew [] l).length = l.toFinset.card := by
  rw [← List.toFinset_card_of_nodup (nodup_appendNew List.nodup_nil l)]
  congr 1
  ext s
  rw [List.mem_toFinset, List.mem_toFinset, mem_appendNew, or_iff_right List.not_mem_nil]

/-- What was appended first keeps its number. -/
theorem prefix_appendNew_take (l : List State) (i : Nat) : appendNew [] (l.take i) <+: appendNew [] l := by
  have happend : appendNew [] l = appendNew (appendNew [] (l.take i)) (l.drop i) := by
    rw [appendNew, appendNew, appendNew, ← List.foldl_append, List.take_append_drop]
  rw [happend]
  exact prefix_appendNew _ _

/-- A state is numbered no later than it comes, and not earlier if up to it all are different. -/
theorem exists_number_appendNew {l : List State} {i : Nat} {s : State} (h : l[i]? = some s) :
    ∃ n ≤ i, (appendNew [] l)[n]? = some s ∧ (n = i ↔ (l.take (i + 1)).Nodup) := by
  have hi := (List.getElem?_eq_some_iff.mp h).1
  have hfront : (l.take (i + 1))[i]? = some s := by rw [List.getElem?_take_of_lt (Nat.lt_succ_self i), h]
  have hlength : (l.take (i + 1)).length = i + 1 := List.length_take_of_le hi
  obtain ⟨n, hn⟩ := List.mem_iff_getElem?.mp (mem_appendNew.mpr (.inr (List.mem_of_getElem? hfront)))
  have hlt : n < (appendNew [] (l.take (i + 1))).length := (List.getElem?_eq_some_iff.mp hn).1
  have hcount := length_appendNew (l.take (i + 1))
  have hle := List.toFinset_card_le (l.take (i + 1))
  refine ⟨n, by omega, ?_, fun hni => ?_, fun hd => ?_⟩
  · rw [← getElem?_eq_of_prefix (prefix_appendNew_take l (i + 1)) hlt, hn]
  · -- as many different ones as there are at all
    have hcard : (l.take (i + 1)).toFinset.card = (l.take (i + 1)).length := by omega
    exact Multiset.toFinset_card_eq_card_iff_nodup.mp hcard
  · rw [appendNew_of_nodup [] _ (by rwa [List.nil_append]), List.nil_append] at hn hlt
    exact (List.getElem?_inj hlt hd).mp (hn.trans hfront.symm)

namespace Grammar

variable {g : Grammar}

/-! ## Goals that share their start -/

/-- Where one goal starts, another may begin: the symbol of the one may begin with the left-hand side of the other. -/
def Opens (g : Grammar) (a b : Nat) : Prop :=
  ∃ x p, g.next? ⟨a, 0⟩ = some x ∧ x < g.nonterminals ∧ g.productions[b]? = some p ∧ g.Begins x p.lhs

/-- Two goals are the same, or each of them may begin where the other one starts. -/
def Mutual (g : Grammar) (a b : Nat) : Prop := a = b ∨ g.Opens a b ∧ g.Opens b a

theorem mem_closure_singleton_iff (hc : g.Checked) {a b : Nat} :
    (⟨b, 0⟩ : Item) ∈ g.closure {⟨a, 0⟩} ↔ a = b ∨ g.Opens a b := by
  rw [show (⟨b, 0⟩ : Item) ∈ g.closure {⟨a, 0⟩} ↔ _ from (closure_iff hc).symm]
  constructor
  · rintro (h | ⟨-, p, hp, k, x, rfl, hx, hlt, hbegins⟩)
    · exact .inl (congrArg Item.production h).symm
    · exact .inr ⟨x, p, hx, hlt, hp, hbegins⟩
  · rintro (rfl | ⟨x, p, hx, hlt, hp, hbegins⟩)
    · exact .inl rfl
    · exact .inr ⟨rfl, p, hp, _, x, rfl, hx, hlt, hbegins⟩

theorem closure_subset_of_mem (hc : g.Checked) {k : Item} {I : Set Item} (h : k ∈ g.closure I) :
    g.closure {k} ⊆ g.closure I :=
  (isLeast_closure hc {k}).2 ⟨Set.singleton_subset_iff.mpr h, (isLeast_closure hc I).1.2⟩

theorem closure_singleton_eq_iff (hc : g.Checked) {a b : Nat} :
    g.closure {⟨a, 0⟩} = g.closure {⟨b, 0⟩} ↔ g.Mutual a b := by
  constructor
  · intro h
    have ha : (⟨a, 0⟩ : Item) ∈ g.closure {⟨b, 0⟩} := h ▸ .base rfl
    have hb : (⟨b, 0⟩ : Item) ∈ g.closure {⟨a, 0⟩} := h.symm ▸ .base rfl
    rcases (mem_closure_singleton_iff hc).mp ha with rfl | hba
    · exact .inl rfl
    · rcases (mem_closure_singleton_iff hc).mp hb with rfl | hab
      · exact .inl rfl
      · exact .inr ⟨hab, hba⟩
  · rintro (rfl | ⟨hab, hba⟩)
    · rfl
    · have ha := closure_subset_of_mem hc ((mem_closure_singleton_iff hc).mpr (.inr hba))
      have hb := closure_subset_of_mem hc ((mem_closure_singleton_iff hc).mpr (.inr hab))
      exact ha.antisymm hb

/-- Where the left-hand sides of goals are on no right-hand side, no goal begins where another starts. -/
theorem not_opens_of_fresh (hf : ∀ p ∈ g.productions, ∀ s ∈ p.rhs, s ∉ g.goalSymbols) {a b : Nat}
    (hb : b ∈ g.goals) : ¬ g.Opens a b := by
  rintro ⟨x, p, hx, -, hp, hbegins⟩
  obtain ⟨r, hr, hm⟩ := mem_rhs_of_begins hx hbegins
  exact hf r hr _ hm (List.mem_filterMap.mpr ⟨b, hb, by rw [hp, Option.map_some]⟩)

theorem pairwise_not_mutual (hd : g.goals.Nodup) (hf : ∀ p ∈ g.productions, ∀ s ∈ p.rhs, s ∉ g.goalSymbols)
    (i : Nat) : (g.goals.take i).Pairwise fun a b => ¬ g.Mutual a b := by
  refine (hd.sublist (List.take_sublist i g.goals)).imp_of_mem fun _ hb hne => ?_
  rintro (rfl | ⟨hopens, -⟩)
  · exact hne rfl
  · exact not_opens_of_fresh hf (List.mem_of_mem_take hb) hopens

theorem start_eq_iff (hc : g.Checked) {a b : Nat} (ha : a ∈ g.goals) (hb : b ∈ g.goals) :
    g.start g.itemTable a = g.start g.itemTable b ↔ g.Mutual a b := by
  have hn := hc.nonterminals_le
  rw [← closure_singleton_eq_iff hc, ← itemSet_start hc ha, ← itemSet_start hc hb]
  constructor
  · exact congrArg g.itemSet
  · exact fun h => eq_of_holds (below_start hn a) (below_start hn b) fun item => Set.ext_iff.mp h item

theorem nodup_starts_iff (hc : g.Checked) (i : Nat) :
    ((g.goals.map (g.start g.itemTable)).take i).Nodup ↔ (g.goals.take i).Pairwise fun a b => ¬ g.Mutual a b := by
  rw [← List.map_take, List.Nodup, List.pairwise_map]
  refine List.Pairwise.iff_of_mem fun ha hb => not_congr ?_
  exact start_eq_iff hc (List.mem_of_mem_take ha) (List.mem_of_mem_take hb)

/-- A number in the list of first states is a number in the collection. -/
theorem collection_of_starts {n : Nat} {q : State}
    (h : (appendNew [] (g.goals.map (g.start g.itemTable)))[n]? = some q) :
    g.collection[n]? = some (g.itemSet q) := by
  have hn := (List.getElem?_eq_some_iff.mp h).1
  rw [collection, List.getElem?_map, states, ← getElem?_eq_of_prefix (prefix_explore _ _ _ _) hn, h, Option.map_some]

/-- For every goal, one state has the closure of its start as its items, with a number that is at most that of the goal.
Parsing for the goal starts in this state exactly if no two of the goals up to it are the same or may begin where the
other one starts, as is always so for different goals whose left-hand sides are on no right-hand side. -/
theorem startState_iff (hb : g.build = .ok g) {i goal : Nat} (hi : g.goals[i]? = some goal) :
    ∃ n ≤ i, (∀ m, g.collection[m]? = some (g.closure {⟨goal, 0⟩}) ↔ m = n) ∧
      ((Tables.build g).startState? i = some n ↔
        (g.goals.take (i + 1)).Pairwise fun a b => ¬ g.Mutual a b) ∧
      (g.goals.Nodup → (∀ p ∈ g.productions, ∀ s ∈ p.rhs, s ∉ g.goalSymbols) →
        (Tables.build g).startState? i = some n) := by
  have hc := checked_of_build hb
  have hmap : (g.goals.map (g.start g.itemTable))[i]? = some (g.start g.itemTable goal) := by
    rw [List.getElem?_map, hi, Option.map_some]
  obtain ⟨n, hle, hn, hiff⟩ := exists_number_appendNew hmap
  have hnumber : g.collection[n]? = some (g.closure {⟨goal, 0⟩}) := by
    rw [collection_of_starts hn, itemSet_start hc (List.mem_of_getElem? hi)]
  have hlt := (List.getElem?_eq_some_iff.mp hnumber).1
  have hstart : (Tables.build g).startState? i = some i := if_pos (List.getElem?_eq_some_iff.mp hi).1
  have hmutual : (Tables.build g).startState? i = some n ↔
      (g.goals.take (i + 1)).Pairwise fun a b => ¬ g.Mutual a b := by
    rw [hstart, Option.some_inj, eq_comm, hiff, nodup_starts_iff hc]
  refine ⟨n, hle, fun m => ⟨fun hm => ?_, ?_⟩, hmutual, fun hd hf => hmutual.mpr (pairwise_not_mutual hd hf _)⟩
  · exact ((List.getElem?_inj hlt (nodup_collection hc)).mp (hnumber.trans hm.symm)).symm
  · rintro rfl
    exact hnumber

/-- Terms with any number of marks behind them, to be read as expressions or as operands. -/
def marked : Grammar where
  labels := ["Expr", "Term", "Operand", "a", "mark", "end"]
  nonterminals := 3
  productions := [⟨0, [1], none⟩, ⟨1, [2, 4], none⟩, ⟨1, [3], none⟩, ⟨2, [0], none⟩]
  goals := [0, 3]
  precedences := []

/-- An expression begins with an operand, and an operand is an expression. -/
theorem mutual_marked : marked.Mutual 0 3 := by
  have hterm : marked.Begins 1 2 := .single (show (1, 2) ∈ marked.beginnings by decide)
  exact .inr ⟨⟨1, _, rfl, by decide, rfl, hterm⟩, ⟨0, _, rfl, by decide, rfl, .refl⟩⟩

/-- The second goal has the first state as its start, as the first one has, and does not start there. The one goal of
sums, whose left-hand side is on no right-hand side, starts where its start is. -/
theorem startState_iff_marked :
    (marked.build = .ok marked ∧ marked.goals[1]? = some 3 ∧
      marked.collection[0]? = some (marked.closure {⟨3, 0⟩}) ∧ (Tables.build marked).startState? 1 ≠ some 0) ∧
    sums.build = .ok sums ∧ sums.goals[0]? = some 0 ∧
      sums.collection[0]? = some (sums.closure {⟨0, 0⟩}) ∧ (Tables.build sums).startState? 0 = some 0 := by
  have hb : marked.build = .ok marked := rfl
  have hi : marked.goals[1]? = some 3 := rfl
  obtain ⟨n, hn, hnumber, hstart, -⟩ := startState_iff hb hi
  have hne : (Tables.build marked).startState? 1 ≠ some n := by
    intro h
    have := hstart.mp h
    rw [show marked.goals.take 2 = [0, 3] from rfl, List.pairwise_pair] at this
    exact this mutual_marked
  obtain rfl : n = 0 := by
    have h1 : n ≠ 1 := by
      rintro rfl
      exact hne rfl
    omega
  obtain ⟨k, hk, hsum, -, hfresh⟩ := startState_iff (g := sums) (i := 0) augmented_sums.build rfl
  obtain rfl : k = 0 := Nat.le_zero.mp hk
  exact ⟨⟨hb, hi, (hnumber 0).mpr rfl, hne⟩, augmented_sums.build, rfl, (hsum 0).mpr rfl,
    hfresh augmented_sums.goals_nodup augmented_sums.fresh⟩

/-- The second goal is said to start in the state with its number, which is the one behind an expression. -/
theorem startState_marked :
    marked.build = .ok marked ∧ marked.goals[1]? = some 3 ∧ (Tables.build marked).startState? 1 = some 1 ∧
      marked.collection[1]? ≠ some (marked.closure {⟨3, 0⟩}) := by
  refine ⟨rfl, rfl, rfl, fun h => ?_⟩
  rw [collection, List.getElem?_map, Option.map_eq_some_iff] at h
  obtain ⟨q, hq, hitems⟩ := h
  have hstart : (⟨3, 0⟩ : Item) ∈ marked.closure {⟨3, 0⟩} := .base rfl
  rw [← hitems] at hstart
  obtain ⟨n, hn, hq'⟩ := hstart
  obtain rfl : n = 7 := items_number hn rfl
  have hstate : ((marked.states marked.itemTable)[1]?.map (·.has 7)) = some false := by decide
  rw [hq, Option.map_some, hq'] at hstate
  cases hstate

end Grammar

end Formula.LR
