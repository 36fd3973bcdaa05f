import Formula.Proofs.LR.Move
import Formula.Proofs.LR.Soundness

/-!
# Reductions in check

A reduction is left to the language, and nothing makes it take the phrase of its production off the stack
and put one token in its place. The parser finds out by counting: before each turn there is one state more
than there are tokens (`Config.Paired`), the states lose one for each symbol of the right-hand side whatever
the language did, and so the height that the stack must have is known. `Config.Kept` says that a
reduction left this height and that the tables lead on from the state below; `Config.Complaint` names the
fault for each way to fall short of it.

`reductions_in_check` is about all tables and all languages, also those that settle an open choice with
anything else than one of its sides. That the reductions are by productions of the grammar at all is
`exists_production`.
-/

namespace Formula.LR

variable {τ σ ε : Type}

namespace Config

variable (t : Tables) (s : Semantics τ σ ε) (c : Config τ σ)

/-- The memory that the action of a turn finds: an open choice may have changed it. -/
def settled : σ :=
  match t.lookup c.state (s.symbol c.next) with
  | .ambiguous number => (s.choose number c.next c.stack c.rest c.memo).2
  | _ => c.memo

/-- The state below the phrase of a production. -/
def below (p : Production) : Nat := (c.states.drop p.rhs.length).headD 0

/-- There is one state more than there are tokens. -/
def Paired : Prop := c.states.length = c.stack.length + 1

/-- A reduction by a production left a stack that the parser can go on with. -/
structure Kept (p : Production) (stack : List τ) : Prop where
  phrase : p.rhs.length ≤ c.stack.length
  height : stack.length = c.stack.length - p.rhs.length + 1
  leads : ∃ n, t.lookup (c.below p) p.lhs = .goto n

/-- What is wrong with the stack that a reduction by a production left. -/
inductive Complaint (p : Production) (stack : List τ) : Fault → Prop where
  | underflow (h : c.stack.length < p.rhs.length) : Complaint p stack .stackUnderflow
  | mismatch (h : p.rhs.length ≤ c.stack.length) (hl : stack.length ≠ c.stack.length - p.rhs.length + 1) :
      Complaint p stack (.stackMismatch stack.length (c.stack.length - p.rhs.length + 1))
  | missing (h : p.rhs.length ≤ c.stack.length) (hl : stack.length = c.stack.length - p.rhs.length + 1)
      (hn : ∀ n, t.lookup (c.below p) p.lhs ≠ .goto n) : Complaint p stack (.missingGoto (c.below p) p.lhs)

variable {t s c}

theorem Complaint.not_kept {p : Production} {stack : List τ} {f : Fault} (h : c.Complaint t p stack f) :
    ¬c.Kept t p stack := by
  rintro ⟨hphrase, hheight, n, hn⟩
  cases h with
  | underflow h => omega
  | mismatch _ h => exact h hheight
  | missing _ _ h => exact h n hn

/-! ## One turn -/

/-- A turn that decides for a reduction carries it out with the memory that the choice left. -/
theorem step_eq_reduce {number : Nat} (hd : c.decision t s = .reduce number) :
    ∃ stats, c.step t s = ({ c with stats, memo := c.settled t s } : Config τ σ).reduce t s number := by
  unfold decision at hd
  unfold step settled
  cases hl : t.lookup c.state (s.symbol c.next) with
  | ambiguous k =>
    rw [hl] at hd
    dsimp only at hd ⊢
    cases hc : s.choose k c.next c.stack c.rest c.memo with
    | mk answer memo =>
      rw [hc] at hd
      cases answer with
      | error e => cases hd
      | ok action =>
        cases hd
        exact ⟨_, rfl⟩
  | reduce k =>
    rw [hl] at hd
    cases hd
    exact ⟨c.stats, rfl⟩
  | _ =>
    rw [hl] at hd
    cases hd

/-- Putting the states in step with a stack goes on from one that was kept, and complains of every other. -/
theorem Paired.settle_cases (h : c.Paired) (p : Production) (stack : List τ) :
    (c.Kept t p stack ∧ ∃ c', c.settle t s p stack = .go c' ∧ c'.stack = stack ∧ c'.Paired) ∨
      ∃ f, c.Complaint t p stack f ∧ c.settle t s p stack = .stop ⟨.error (s.fault f), c.stats, c.memo⟩ := by
  unfold Paired at h
  unfold settle
  have hlength := List.length_drop (i := p.rhs.length) (l := c.states)
  cases hd : c.states.drop p.rhs.length with
  | nil =>
    rw [hd, List.length_nil] at hlength
    exact .inr ⟨_, .underflow (by omega), rfl⟩
  | cons top below =>
    rw [hd, List.length_cons] at hlength
    have hphrase : p.rhs.length ≤ c.stack.length := by omega
    have hbelow : below.length = c.stack.length - p.rhs.length := by omega
    have htop : c.below p = top := by rw [Config.below, hd, List.headD_cons]
    dsimp only
    rw [hbelow, ← htop]
    split
    · rename_i hheight
      exact .inr ⟨_, .mismatch hphrase hheight, rfl⟩
    · rename_i hheight
      rw [not_not] at hheight
      split
      · rename_i n hn
        refine .inl ⟨⟨hphrase, hheight, n, hn⟩, _, rfl, rfl, ?_⟩
        simp only [Paired, List.length_cons]
        omega
      · rename_i hn
        exact .inr ⟨_, .missing hphrase hheight hn, rfl⟩

/-- A turn that shifts, and one that puts the states in step, leave one state more than there are tokens. -/
theorem Paired.step {c' : Config τ σ} (h : c.Paired) (hc : c.step t s = .go c') : c'.Paired := by
  rcases step_eq t s c with ⟨e, stats, memo, he⟩ | ⟨stats, memo, he⟩
  · rw [he] at hc
    cases hc
  rw [he] at hc
  rcases act_eq_go hc with ⟨n, -, rfl⟩ | ⟨number, p, stack, top, below, n, stats', memo', hd, hp, hr, -, -, -⟩
  · rw [Paired, shift_states, shift_stack, List.length_cons, List.length_cons]
    exact congrArg (· + 1) h
  · rw [hd, act, reduce, hr] at hc
    dsimp only at hc
    rw [hp] at hc
    rcases Paired.settle_cases (c := { c with stats, memo := memo' }) h p stack with
      ⟨-, d, hgo, -, hd⟩ | ⟨f, -, hstop⟩
    · cases hgo.symm.trans hc
      exact hd
    · cases hstop.symm.trans hc

/-- A turn that reduces with success goes on if and only if the stack was kept, and otherwise ends the run with the
complaint. -/
theorem Paired.reduction (h : c.Paired) {number : Nat} {p : Production} {stack : List τ} {memo : σ}
    (hd : c.decision t s = .reduce number) (hp : t.grammar.productions[number]? = some p)
    (hr : s.reduce number c.next c.stack (c.settled t s) = (.ok stack, memo)) :
    (c.Kept t p stack ∧ ∃ c', c.step t s = .go c' ∧ c'.stack = stack) ∨
      ∃ f, c.Complaint t p stack f ∧ ∃ stats, c.step t s = .stop ⟨.error (s.fault f), stats, memo⟩ := by
  obtain ⟨stats, hstep⟩ := step_eq_reduce hd
  rw [reduce, hr] at hstep
  dsimp only at hstep
  rw [hp] at hstep
  rcases Paired.settle_cases (c := { c with stats, memo }) h p stack with
    ⟨⟨h₁, h₂, h₃⟩, c', hgo, hstack, -⟩ | ⟨f, hf, hstop⟩
  · exact .inl ⟨⟨h₁, h₂, h₃⟩, c', hstep.trans hgo, hstack⟩
  · refine .inr ⟨f, ?_, stats, hstep.trans hstop⟩
    cases hf with
    | underflow h => exact .underflow h
    | mismatch h hl => exact .mismatch h hl
    | missing h hl hn => exact .missing h hl hn

end Config

/-! ## Whole runs -/

variable {t : Tables} {s : Semantics τ σ ε}

theorem Leads.paired {n : Nat} {c d : Config τ σ} (h : Leads t s n c d) (hc : c.Paired) : d.Paired := by
  induction h with
  | refl => exact hc
  | go hstep _ ih => exact ih (hc.step hstep)

theorem Config.paired_start (bottom : Nat) (input : List τ) (memo : σ) : (start s bottom input memo).Paired := by
  rw [Paired, start_states, start_stack]
  rfl

/-- A turn before which the parser is in the history, and which ends the run, is the last one. -/
theorem getLast?_history {fuel : Nat} {c d : Config τ σ} {o : Outcome τ σ ε} (h : d ∈ history t s fuel c)
    (hstop : d.step t s = .stop o) : (history t s fuel c).getLast? = some d ∧ turns t s fuel c = o := by
  obtain ⟨n, hn, hd⟩ := exists_leads_of_mem_history h
  refine ⟨?_, hd.turns_of_stop hstop hn⟩
  obtain ⟨k, rfl⟩ : ∃ k, fuel = n + (k + 1) := ⟨fuel - n - 1, by omega⟩
  rw [hd.history, history, hstop, List.getLast?_concat]

/-- A turn that ends a run is its last one. -/
theorem run_of_stop {fuel goal : Nat} {input : List τ} {memo : σ} {c : Config τ σ} {o : Outcome τ σ ε}
    (hc : c ∈ historyOf t s fuel goal input memo) (hstop : c.step t s = .stop o) :
    (historyOf t s fuel goal input memo).getLast? = some c ∧ run t s fuel goal input memo = o := by
  unfold historyOf at hc ⊢
  unfold run
  cases hstart : t.startState? goal with
  | none =>
    rw [hstart] at hc
    cases hc
  | some bottom =>
    rw [hstart] at hc
    exact getLast?_history hc hstop

/-- However the language treats the stack, before each turn there is one state more than there are tokens. A reduction
that reports success is followed by another turn, with the stack that it left, if and only if the stack was as high as
its production is long, is now as high as without the phrase and with one more token, and the tables lead on from the
state below the phrase; otherwise this turn is the last one, and the run ends with the fault that says which of the
three failed first. -/
theorem reductions_in_check (t : Tables) (s : Semantics τ σ ε) (fuel goal : Nat) (input : List τ) (memo : σ)
    {c : Config τ σ} (hc : c ∈ historyOf t s fuel goal input memo) :
    c.states.length = c.stack.length + 1 ∧
      ∀ number p stack memo', c.decision t s = .reduce number → t.grammar.productions[number]? = some p →
        s.reduce number c.next c.stack (c.settled t s) = (.ok stack, memo') →
          ((∃ c', c.step t s = .go c') ↔ c.Kept t p stack) ∧
            (∀ c', c.step t s = .go c' → c'.stack = stack) ∧
            (¬c.Kept t p stack → ∃ f, c.Complaint t p stack f ∧
              (historyOf t s fuel goal input memo).getLast? = some c ∧
              (run t s fuel goal input memo).result = .error (s.fault f)) := by
  unfold historyOf at hc ⊢
  unfold run
  cases hstart : t.startState? goal with
  | none =>
    rw [hstart] at hc
    cases hc
  | some bottom =>
    rw [hstart] at hc
    dsimp only at hc ⊢
    obtain ⟨n, hn, hd⟩ := exists_leads_of_mem_history hc
    have hpaired := hd.paired (Config.paired_start bottom input memo)
    refine ⟨hpaired, fun number p stack memo' hdecision hp hr => ?_⟩
    rcases hpaired.reduction hdecision hp hr with ⟨hkept, c', hgo, hstack⟩ | ⟨f, hf, stats, hstop⟩
    · refine ⟨iff_of_true ⟨c', hgo⟩ hkept, fun d hgo' => ?_, fun h => absurd hkept h⟩
      cases hgo.symm.trans hgo'
      exact hstack
    · have hnot : ∀ d, c.step t s ≠ .go d := by
        rw [hstop]
        rintro d ⟨⟩
      obtain ⟨hlast, ho⟩ := getLast?_history hc hstop
      exact ⟨iff_of_false (fun ⟨d, hgo⟩ => hnot d hgo) hf.not_kept, fun d hgo => absurd hgo (hnot d),
        fun _ => ⟨f, hf, hlast, by rw [ho]⟩⟩

/-- A reduction that leaves the phrase on the stack is the last thing that happens: after the first number of a sum
there are two tokens where there should be one. -/
theorem reductions_in_check_sums :
    let t := Tables.build sums
    let s := Outline.semantics t .shift .keepsPhrase
    let turns := historyOf t s 100 0 ([2, 3, 2].map Outline.leaf) {}
    ∃ c ∈ turns, c.decision t s = .reduce 2 ∧ (∀ c', c.step t s ≠ .go c') ∧ turns.getLast? = some c ∧
      (run t s 100 0 ([2, 3, 2].map Outline.leaf) {}).result = .error (.fault (.stackMismatch 2 1)) := by
  have hc : ⟨[2, 0], [Outline.leaf 2], Outline.leaf 3, [Outline.leaf 2], ⟨2, 1, 0, 0⟩, {}⟩ ∈
      historyOf (Tables.build sums) (Outline.semantics (Tables.build sums) .shift .keepsPhrase) 100 0
        ([2, 3, 2].map Outline.leaf) {} :=
    List.mem_of_getElem? (i := 1) (by rfl)
  obtain ⟨-, h⟩ := reductions_in_check (Tables.build sums)
    (Outline.semantics (Tables.build sums) .shift .keepsPhrase) 100 0 ([2, 3, 2].map Outline.leaf) {} hc
  have hdecision : Config.decision (Tables.build sums) (Outline.semantics (Tables.build sums) .shift .keepsPhrase)
      ⟨[2, 0], [Outline.leaf 2], Outline.leaf 3, [Outline.leaf 2], ⟨2, 1, 0, 0⟩, {}⟩ = .reduce 2 := by rfl
  obtain ⟨hgo, -, hstop⟩ := h 2 ⟨1, [2], none⟩ [Outline.branch 1 [], Outline.leaf 2] _ hdecision (by rfl) (by rfl)
  obtain ⟨f, hf, hlast, hresult⟩ := hstop fun h => absurd h.height (by decide)
  refine ⟨_, hc, hdecision, fun c' h => absurd (hgo.mp ⟨c', h⟩).height (by decide), hlast, ?_⟩
  cases hf with
  | underflow h => exact absurd h (by decide)
  | mismatch _ _ => exact hresult
  | missing _ h _ => exact absurd h (by decide)

/-! ## Productions -/

variable {g : Grammar}

/-- What the tables of a grammar reduce by, at once or by an open choice, are productions of the grammar. -/
theorem exists_production_of_lookup (hg : 0 < g.symbols) {n x : Nat} :
    (∀ i, (Tables.build g).lookup n x = .reduce i → ∃ p, g.productions[i]? = some p) ∧
      ∀ k i, (Tables.build g).lookup n x = .ambiguous k →
        (.reduce i = ((Tables.build g).choice k).1 ∨ .reduce i = ((Tables.build g).choice k).2) →
          ∃ p, g.productions[i]? = some p := by
  rw [lookup_wrap _ hg]
  generalize (Tables.build g).place n x / (Tables.build g).grammar.symbols = n'
  have hx : (Tables.build g).place n x % (Tables.build g).grammar.symbols < g.symbols := Nat.mod_lt _ hg
  generalize (Tables.build g).place n x % (Tables.build g).grammar.symbols = x' at hx
  have hsanctioned : ∀ {q : State} {i : Nat}, g.Sanctioned q x' (.reduce i) → ∃ p, g.productions[i]? = some p := by
    rintro q i ⟨⟩
    exact ⟨_, ‹_›⟩
  cases hq : (g.states g.itemTable)[n']? with
  | none =>
    rw [lookup_eq_error hq hx]
    exact ⟨by rintro i ⟨⟩, by rintro k i ⟨⟩⟩
  | some q =>
    rcases lookup_sanctioned hq hx with h | ⟨number, hl, h₁, h₂⟩
    · refine ⟨fun i hi => hsanctioned (hi ▸ h), fun k i hk => ?_⟩
      rw [hk] at h
      cases h
    · rw [hl]
      refine ⟨by rintro i ⟨⟩, ?_⟩
      rintro k i ⟨⟩ (hi | hi)
      · exact hsanctioned (hi ▸ h₁)
      · exact hsanctioned (hi ▸ h₂)

/-- In a run with the tables of a grammar that passes the checks, every turn that reduces does so by a production of
the grammar, if the language settles the open choice of the turn with one of its sides. -/
theorem exists_production (hg : g.build = .ok g) {fuel goal : Nat} {input : List τ} {memo : σ} {c : Config τ σ}
    (hc : c ∈ historyOf (Tables.build g) s fuel goal input memo) {number : Nat}
    (hd : c.decision (Tables.build g) s = .reduce number)
    (hchoose : ∀ {k action}, (s.choose k c.next c.stack c.rest c.memo).1 = .ok action →
      action = ((Tables.build g).choice k).1 ∨ action = ((Tables.build g).choice k).2) :
    ∃ p, g.productions[number]? = some p := by
  have hsymbols : 0 < g.symbols := by
    have hchecked := Grammar.checked_of_build hg
    have hgoal : goal < g.goals.length := by
      by_contra hgoal
      have hstart : (Tables.build g).startState? goal = none := if_neg hgoal
      rw [historyOf, hstart] at hc
      cases hc
    obtain ⟨p, -, hp, -⟩ := hchecked.goal _ (List.getElem_mem hgoal)
    have hlhs := hchecked.lhs_lt p (List.mem_of_getElem? hp)
    have hle := hchecked.nonterminals_le
    omega
  obtain ⟨hreduce, hambiguous⟩ := exists_production_of_lookup hsymbols (n := c.state) (x := s.symbol c.next)
  unfold Config.decision at hd
  split at hd
  · rename_i k hk
    split at hd
    · rename_i action haction
      subst hd
      exact hambiguous k number hk (hchoose haction)
    · cases hd
  · exact hreduce number hd

end Formula.LR
