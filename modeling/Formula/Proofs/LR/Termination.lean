import Formula.Proofs.LR.Safety
import Formula.Rule

/-!
# Runs come to an end

Nothing in a parser counts its turns. Still every run ends if no production is empty, no symbol is renamed to itself
by productions with one symbol on the right, and the mark of the end stands on no right-hand side: `Descending`.

The end is never shifted, so that no more tokens are shifted than there are in the input, and the productions that were
reduced by derive these tokens. Where every right-hand side is heavier than its left-hand side, a derivation can be no
longer than its tokens are heavy, which bounds the turns (`Leads.le_of_weights`). The grammar has such weights: two
symbols outweigh every one, and one symbol has a higher `rank` than those that are renamed to it. The bound is linear in
the length of the input (`run_halts`).

The tables have no column for a symbol that the grammar does not have, and what a look-up finds for it is an action of
another state. With such a symbol in the input a run may reduce for ever (`run_crossing_stalled`).
-/

namespace Formula.LR

namespace Grammar

variable (g : Grammar)

/-- A nonterminal may stand for a single symbol. -/
def Renames (a b : Nat) : Prop := ∃ p ∈ g.productions, p.lhs = a ∧ p.rhs = [b]

/-- A grammar that passes the checks, in which every reduction comes closer to an end. -/
structure Descending : Prop where
  build : g.build = .ok g
  nonempty : ∀ p ∈ g.productions, p.rhs ≠ []
  acyclic : ∀ a, ¬ Relation.TransGen g.Renames a a
  endMarker_notMem : ∀ p ∈ g.productions, g.endMarker ∉ p.rhs

/-! ## Weights -/

/-- A symbol leads to the nonterminals that may stand for it. -/
def renamings : List (Nat × Nat) :=
  g.productions.filterMap fun p =>
    match p.rhs with
    | [b] => some (b, p.lhs)
    | _ => none

/-- How many symbols may stand for a symbol by productions that rename, the symbol itself among them. -/
def rank (symbol : Nat) : Nat :=
  ((reachable g.renamings (.ofList [symbol])).toList g.symbols).length

/-- The weight of a symbol. Any two weigh more than any one. -/
def weight (symbol : Nat) : Nat := g.symbols + 1 + g.rank symbol

variable {g}

theorem edge_renamings {a b : Nat} : Edge g.renamings b a ↔ g.Renames a b := by
  simp only [Edge, renamings, Renames, List.mem_filterMap]
  refine exists_congr fun p => and_congr_right fun _ => ?_
  constructor
  · intro h
    split at h
    · cases h
      exact ⟨rfl, ‹_›⟩
    · cases h
  · rintro ⟨rfl, hr⟩
    rw [hr]

theorem transGen_of_path {a b c : Nat} (h : Path g.renamings b a) (hc : g.Renames b c) :
    Relation.TransGen g.Renames a c := by
  induction h with
  | refl => exact .single hc
  | tail _ he ih => exact .head (edge_renamings.mp he) ih

theorem rank_le (x : Nat) : g.rank x ≤ g.symbols := by
  have := List.length_filter_le (reachable g.renamings (.ofList [x])).has (List.range g.symbols)
  rwa [List.length_range] at this

theorem weight_le (x : Nat) : g.weight x ≤ 2 * g.symbols + 1 := by
  have := g.rank_le x
  rw [weight]
  omega

/-- What may stand for the left-hand side may stand for the one symbol on the right, and the symbol itself is new. -/
theorem Descending.rank_lt (h : g.Descending) {a b : Nat} (hab : g.Renames a b) (hb : b < g.symbols) :
    g.rank a < g.rank b := by
  refine length_filter_lt (fun c _ hc => ?_) (List.mem_range.mpr hb) (has_reachable_singleton.mpr .refl) ?_
  · exact has_reachable_singleton.mpr (.head (edge_renamings.mpr hab) (has_reachable_singleton.mp hc))
  · refine Bool.eq_false_iff.mpr fun hc => h.acyclic b ?_
    exact transGen_of_path (has_reachable_singleton.mp hc) hab

/-- Where every single symbol on the right has a higher number than the left-hand side, no symbol is renamed to
itself. -/
theorem not_transGen_of_lt (h : ∀ p ∈ g.productions, p.rhs.length = 1 → ∀ b ∈ p.rhs, p.lhs < b) (a : Nat) :
    ¬ Relation.TransGen g.Renames a a := by
  have hone : ∀ {b c}, g.Renames b c → b < c := by
    rintro b c ⟨p, hp, rfl, hr⟩
    exact h p hp (by simp [hr]) c (by simp [hr])
  suffices hlt : ∀ b, Relation.TransGen g.Renames a b → a < b from fun ha => Nat.lt_irrefl a (hlt a ha)
  intro b hb
  induction hb with
  | single hr => exact hone hr
  | tail _ hr ih => exact Nat.lt_trans ih (hone hr)

/-- A right-hand side weighs more than the left-hand side. -/
theorem Descending.weight_lt (h : g.Descending) {p : Production} (hp : p ∈ g.productions) :
    g.weight p.lhs < (p.rhs.map g.weight).sum := by
  match hr : p.rhs with
  | [] => exact absurd hr (h.nonempty p hp)
  | [b] =>
    have hb := (checked_of_build h.build).rhs_lt p hp b (by simp [hr])
    have := h.rank_lt ⟨p, hp, rfl, hr⟩ hb
    simp only [weight, List.map_cons, List.map_nil, List.sum_cons, List.sum_nil]
    omega
  | b :: c :: rest =>
    have := g.weight_le p.lhs
    simp only [weight, List.map_cons, List.sum_cons] at this ⊢
    omega

end Grammar

/-! ## Runs -/

variable {τ σ ε : Type} {g : Grammar} {s : Semantics τ σ ε} {input : List τ}

/-- With weights up to `k` by which every right-hand side is heavier than its left-hand side, a token of the input is
good for one shift and no more than `k` reductions. -/
theorem Leads.le_of_weights (hc : g.Checked) (hs : s.Lawful (Tables.build g))
    (hend : ∀ p ∈ g.productions, s.symbol s.endToken ∉ p.rhs)
    (hx : ∀ token ∈ s.endToken :: input, s.symbol token < g.symbols) {w : Nat → Nat} {k : Nat}
    (hw : ∀ p ∈ g.productions, w p.lhs < (p.rhs.map w).sum) (hk : ∀ x, w x ≤ k) {index n : Nat} {memo : σ}
    {d : Config τ σ} (h : Leads (Tables.build g) s n (Config.start s index input memo) d) :
    n ≤ (k + 1) * input.length := by
  obtain ⟨-, numbers, read, hreads, rfl⟩ := Reads.of_leads hc hs hx h
  have hright := hreads.rightmost [] (by simp)
  rw [List.append_nil, List.append_nil] at hright
  have hsteps := hright.length_le_mul hw hk
  rw [List.length_map] at hsteps
  calc numbers.length + read.length
    _ ≤ k * read.length + read.length := Nat.add_le_add_right hsteps _
    _ = (k + 1) * read.length := (Nat.succ_mul k read.length).symm
    _ ≤ (k + 1) * input.length := Nat.mul_le_mul_left _ (hreads.length_le hc hend)

/-- A run over symbols of the grammar ends, whatever the tables and the language decide: a goal that the grammar does
not have is refused at once, and otherwise the parser comes to a last turn, after at most as many turns as the length
of the input allows. The outcome is the same with all fuel that is enough. -/
theorem run_halts (hg : g.Descending) (hs : s.Lawful (Tables.build g)) (hend : s.symbol s.endToken = g.endMarker)
    (hx : ∀ token ∈ input, s.symbol token < g.symbols) (index : Nat) (memo : σ) :
    ∃ k ≤ (2 * g.symbols + 2) * input.length, ∃ o,
      (∀ fuel > k, run (Tables.build g) s fuel index input memo = o) ∧
        ((∃ last, Leads (Tables.build g) s k (Config.start s index input memo) last ∧
            last.step (Tables.build g) s = .stop o) ∨
          g.goals.length ≤ index ∧ o = ⟨.error (s.fault (.unknownGoal index)), {}, memo⟩) := by
  have hc := Grammar.checked_of_build hg.build
  by_cases hi : index < g.goals.length
  · obtain ⟨p, x, hp, hr⟩ := hc.goal _ (List.getElem_mem hi)
    have hmark : s.symbol s.endToken < g.symbols := by
      have := hc.rhs_lt p (List.mem_of_getElem? hp) x (by simp [hr])
      rw [hend, Grammar.endMarker]
      omega
    have hbound : ∀ n d, Leads (Tables.build g) s n (Config.start s index input memo) d →
        n ≤ (2 * g.symbols + 2) * input.length := fun n d hl =>
      hl.le_of_weights hc hs (hend ▸ hg.endMarker_notMem) (List.forall_mem_cons.mpr ⟨hmark, hx⟩)
        (fun p hp => hg.weight_lt hp) g.weight_le
    obtain ⟨k, hk, last, o, hlast, hstop, ho⟩ := exists_last hbound
    exact ⟨k, hk, o, fun fuel hf => (run_eq hi fuel memo).trans (ho fuel hf), .inl ⟨last, hlast, hstop⟩⟩
  · have hnone : (Tables.build g).startState? index = none := if_neg hi
    refine ⟨0, Nat.zero_le _, _, fun fuel _ => ?_, .inr ⟨Nat.le_of_not_lt hi, rfl⟩⟩
    rw [run, hnone]

/-- In the notation, what is renamed has a higher number. -/
theorem descending_notation : Rule.grammar.Descending where
  build := Rule.grammar_build
  nonempty := by decide
  acyclic := Grammar.not_transGen_of_lt (by decide)
  endMarker_notMem := by decide

/-- An expression that breaks off, `1+`, is given up on after at most 156 turns. -/
theorem run_halts_notation :
    let t := Rule.tables
    ∃ k ≤ 156, ∃ last o, Leads t (shifter t) k (Config.start (shifter t) 0 [10, 12] ()) last ∧
      last.step t (shifter t) = .stop o ∧ ∀ fuel > k, run t (shifter t) fuel 0 [10, 12] () = o := by
  intro t
  have hx : ∀ token ∈ [10, 12], token < Rule.grammar.symbols := by decide
  obtain ⟨k, hk, o, ho, ⟨last, hlead, hstop⟩ | ⟨hi, -⟩⟩ :=
    run_halts descending_notation (lawful_shifter Rule.tables) rfl hx 0 ()
  · exact ⟨k, hk, last, o, hlead, hstop, ho⟩
  · exact absurd hi (by decide)

/-! ## Beyond the symbols -/

/-- A start that is one of two nonterminals. -/
def crossing : Grammar where
  labels := ["Goal", "Start", "Left", "Right", "r", "l", "m", "end"]
  nonterminals := 4
  productions := [⟨0, [1], none⟩, ⟨1, [2], none⟩, ⟨1, [3], none⟩, ⟨3, [4], none⟩, ⟨2, [5], none⟩, ⟨2, [6], none⟩]
  goals := [0]
  precedences := []

theorem descending_crossing : crossing.Descending where
  build := rfl
  nonempty := by decide
  acyclic := Grammar.not_transGen_of_lt (by decide)
  endMarker_notMem := by decide

/-- A single symbol above the start state is reduced. -/
theorem step_shifter_reduce {t : Tables} {m n a b x next : Nat} {stats : Stats} (number : Nat)
    (hl : t.lookup m next = .reduce number) (hp : t.grammar.productions[number]? = some ⟨a, [b], none⟩)
    (hn : t.lookup 0 a = .goto n) :
    Config.step t (shifter t) ⟨[m, 0], [x], next, [], stats, ()⟩ =
      .go ⟨[n, 0], [a], next, [], { stats with reductions := stats.reductions + 1 }, ()⟩ := by
  rw [Config.step_reduce (c := (⟨[m, 0], [x], next, [], stats, ()⟩ : Config Nat Unit)) (s := shifter t) hl]
  refine Config.act_reduce hp ?_ rfl hn
  simp only [shifter, hp]

/-- The look-up for 23 goes two rows further. Behind `Left` it finds the production of `Right`, and behind `Right` one
of `Left`. -/
theorem turns_crossing (fuel : Nat) (stats : Stats) :
    let t := Tables.build crossing
    (turns t (shifter t) fuel ⟨[2, 0], [2], 23, [], stats, ()⟩).result = .error (some .stalled) ∧
      (turns t (shifter t) fuel ⟨[3, 0], [3], 23, [], stats, ()⟩).result = .error (some .stalled) := by
  intro t
  induction fuel generalizing stats with
  | zero => exact ⟨rfl, rfl⟩
  | succ fuel ih =>
    have hleft : Config.step t (shifter t) ⟨[2, 0], [2], 23, [], stats, ()⟩ = .go ⟨[3, 0], [3], 23, [], _, ()⟩ :=
      step_shifter_reduce 3 (by decide) rfl (by decide)
    have hright : Config.step t (shifter t) ⟨[3, 0], [3], 23, [], stats, ()⟩ = .go ⟨[2, 0], [2], 23, [], _, ()⟩ :=
      step_shifter_reduce 4 (by decide) rfl (by decide)
    rw [turns, turns, hleft, hright]
    exact ⟨(ih _).2, (ih _).1⟩

/-- The symbol 23 is not one of the eight of the grammar. Behind a token of it a run reduces for ever, back and forth
between two nonterminals. -/
theorem run_crossing_stalled :
    let t := Tables.build crossing
    crossing.Descending ∧ (shifter t).Lawful t ∧ (shifter t).symbol (shifter t).endToken = crossing.endMarker ∧
      ∀ fuel, (run t (shifter t) fuel 0 [4, 23] ()).result = .error (some .stalled) := by
  intro t
  refine ⟨descending_crossing, lawful_shifter t, rfl, fun fuel => ?_⟩
  rw [run_eq (by decide)]
  -- the first two turns shift the `r` and reduce by a production of `Left`
  have hshift : (Config.start (shifter t) 0 [4, 23] ()).step t (shifter t) =
      .go ⟨[4, 0], [4], 23, [], ⟨2, 1, 0, 0⟩, ()⟩ := Config.step_shift (n := 4) (by decide)
  have hreduce : Config.step t (shifter t) ⟨[4, 0], [4], 23, [], ⟨2, 1, 0, 0⟩, ()⟩ =
      .go ⟨[2, 0], [2], 23, [], ⟨2, 1, 1, 0⟩, ()⟩ := step_shifter_reduce 5 (by decide) rfl (by decide)
  match fuel with
  | 0 => rfl
  | 1 =>
    rw [turns, hshift]
    rfl
  | fuel + 2 =>
    rw [turns, hshift]
    dsimp only
    rw [turns, hreduce]
    exact (turns_crossing fuel _).1

end Formula.LR
