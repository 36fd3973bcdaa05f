import Formula.Proofs.LR.Moves

/-!
# The memory of a run

Only the language changes the memory of its parser: where it settles a choice and where it reduces. If both move the
memory along a relation, whatever they answer, so does a run, also one that fails (`run_follows`).

For a language that remembers nothing of its choices, the memory is tied to the stack by reductions alone. What shifts
and reductions keep up between the two holds when a run succeeds, of the token that it returns (`run_keeps`).
-/

namespace Formula.LR

variable {τ σ ε : Type} {g : Grammar} {t : Tables} {s : Semantics τ σ ε} {c c' : Config τ σ}

/-! ## Along a relation -/

/-- Every answer of the language moves the memory along a relation. -/
structure Semantics.Follows (s : Semantics τ σ ε) (R : σ → σ → Prop) : Prop where
  refl : ∀ memo, R memo memo
  trans : ∀ {a b c}, R a b → R b c → R a c
  choose : ∀ number next stack rest memo, R memo (s.choose number next stack rest memo).2
  reduce : ∀ number next stack memo, R memo (s.reduce number next stack memo).2

/-- The memory behind a turn. -/
def Turn.memo : Turn τ σ ε → σ
  | .go c => c.memo
  | .stop o => o.memo

theorem Config.advance_memo (c : Config τ σ) : (c.advance s).memo = c.memo := by
  unfold advance
  split <;> rfl

theorem Config.start_memo (bottom : Nat) (input : List τ) (memo : σ) : (start s bottom input memo).memo = memo :=
  advance_memo _

section

variable {R : σ → σ → Prop} (hR : s.Follows R)

include hR

theorem Config.settle_follows (production : Production) (stack : List τ) :
    R c.memo (c.settle t s production stack).memo := by
  unfold settle
  split
  · exact hR.refl _
  · split
    · exact hR.refl _
    · split <;> exact hR.refl _

theorem Config.act_follows (a : Action) : R c.memo (c.act t s a).memo := by
  cases a with
  | shift n =>
    show R c.memo (c.shift s n).memo
    rw [shift_memo]
    exact hR.refl _
  | reduce number =>
    have hreduce := hR.reduce number c.next c.stack c.memo
    simp only [act, Config.reduce]
    split
    · rename_i h
      rw [h] at hreduce
      exact hreduce
    · rename_i memo h
      rw [h] at hreduce
      split
      · exact hR.trans hreduce (settle_follows (c := { c with memo }) hR _ _)
      · exact hreduce
  | accept =>
    simp only [act, Config.accept]
    split <;> exact hR.refl _
  | error | goto | ambiguous => exact hR.refl _

theorem Config.step_follows : R c.memo (c.step t s).memo := by
  unfold step
  cases t.lookup c.state (s.symbol c.next) with
  | ambiguous number =>
    have hchoose := hR.choose number c.next c.stack c.rest c.memo
    dsimp only
    split
    · rename_i h
      rw [h] at hchoose
      exact hchoose
    · rename_i action memo h
      rw [h] at hchoose
      exact hR.trans hchoose (act_follows (c := { c with stats := _, memo }) hR action)
  | _ => exact act_follows hR _

theorem turns_follows (fuel : Nat) (c : Config τ σ) : R c.memo (turns t s fuel c).memo := by
  induction fuel generalizing c with
  | zero => exact hR.refl _
  | succ fuel ih =>
    have hstep := Config.step_follows (c := c) (t := t) hR
    rw [turns]
    cases hc : c.step t s with
    | go c' =>
      rw [hc] at hstep
      exact hR.trans hstep (ih c')
    | stop o =>
      rw [hc] at hstep
      exact hstep

/-- A run moves the memory along the relation, whether it succeeds or not. -/
theorem run_follows (fuel goal : Nat) (input : List τ) (memo : σ) : R memo (run t s fuel goal input memo).memo := by
  unfold run
  split
  · exact hR.refl _
  · rename_i state _
    have hstart := turns_follows (t := t) hR fuel (Config.start s state input memo)
    rwa [Config.start_memo] at hstart

end

/-! ## Between the stack and the memory -/

/-- The language settles every choice and remembers nothing of it. -/
def Semantics.Decides (s : Semantics τ σ ε) : Prop :=
  ∀ number next stack rest memo, ∃ action, s.choose number next stack rest memo = (.ok action, memo)

/-- What is kept up between the stack and the memory: by a token that is shifted, and by a phrase that is reduced. -/
structure Semantics.Keeps (s : Semantics τ σ ε) (g : Grammar) (P : τ → Prop) (I : List τ → σ → Prop) : Prop where
  shift : ∀ {token stack memo}, g.IsTerminal (s.symbol token) → P token → I stack memo → I (token :: stack) memo
  reduce : ∀ {number p next} {phrase below : List τ} {token memo memo'}, g.productions[number]? = some p →
    phrase.map s.symbol = p.rhs → (∀ t ∈ phrase, P t) →
    s.reduce number next (phrase.reverse ++ below) memo = (.ok (token :: below), memo') →
    I (phrase.reverse ++ below) memo → I (token :: below) memo'

/-- A turn that leads to another shifts and remembers nothing, or remembers what the reduction does. -/
theorem Config.memo_of_go (hs : s.Decides) (hc : c.step t s = .go c') :
    (∃ n, c.decision t s = .shift n ∧ c'.memo = c.memo) ∨
      ∃ number, c.decision t s = .reduce number ∧
        s.reduce number c.next c.stack c.memo = (.ok c'.stack, c'.memo) := by
  obtain ⟨stats, hstep⟩ := step_eq_act hs t c
  rw [hstep] at hc
  rcases act_eq_go hc with ⟨n, ha, rfl⟩ | ⟨number, _, stack, _, _, _, _, memo, ha, -, hreduce, -, -, rfl⟩
  · exact .inl ⟨n, ha, shift_memo _ _⟩
  · exact .inr ⟨number, ha, hreduce⟩

variable {P : τ → Prop} {I : List τ → σ → Prop}

/-- A turn keeps up what shifts and reductions do. -/
theorem Semantics.Keeps.go (hI : s.Keeps g P I) (hs : s.Decides) (hc : c.step (Tables.build g) s = .go c')
    (hm : Move g s c c') (hP : ∀ t ∈ c.tokens, P t) (h : I c.stack c.memo) : I c'.stack c'.memo := by
  cases hm with
  | @shift n stats memo hd ht hc' =>
    rcases Config.memo_of_go hs hc with ⟨_, -, hmemo⟩ | ⟨number, hd', -⟩
    · rw [hmemo, hc', Config.shift_stack]
      exact hI.shift ht (hP _ (by simp [Config.tokens])) h
    · rw [hd] at hd'
      cases hd'
  | @reduce number n bottom p phrase below above states token stats memo memo' hd hp hstack hphrase _ _ _ _ _ _ hc' =>
    rcases Config.memo_of_go hs hc with ⟨_, hd', -⟩ | ⟨number', hd', hreduce⟩
    · rw [hd] at hd'
      cases hd'
    · obtain rfl := Action.reduce.inj (hd.symm.trans hd')
      rw [hc'] at hreduce ⊢
      rw [hstack] at hreduce h
      refine hI.reduce hp hphrase (fun t ht => hP t ?_) hreduce h
      rw [Config.tokens, hstack]
      simp [ht]

theorem Semantics.Keeps.moves (hI : s.Keeps g P I) (hs : s.Decides) (hhands : s.HandsOn g P) (hend : P s.endToken)
    {n : Nat} {d : Config τ σ} (h : Moves g s n c d) (hP : ∀ t ∈ c.tokens, P t) (hc : I c.stack c.memo) :
    I d.stack d.memo := by
  induction h with
  | refl => exact hc
  | go hstep hm _ ih => exact ih (hm.forall_tokens hhands hend hP) (hI.go hs hstep hm hP hc)

/-- The turn that accepts hands over the memory as it is. -/
theorem Config.memo_of_accept (hs : s.Decides) {token : τ} (hd : c.decision t s = .accept) (hstack : c.stack = [token]) :
    ∃ o, c.step t s = .stop o ∧ o.memo = c.memo := by
  obtain ⟨stats, hstep⟩ := step_eq_act hs t c
  rw [hd] at hstep
  simp only [act, accept, hstack] at hstep
  exact ⟨_, hstep, rfl⟩

/-- What is kept up between the stack and the memory holds at the end of a run that succeeds. -/
theorem run_keeps (ha : g.Augmented) (hlawful : s.Lawful (Tables.build g)) (hs : s.Decides) (hI : s.Keeps g P I)
    (hhands : s.HandsOn g P) {fuel index : Nat} {input : List τ} {memo : σ}
    (hx : ∀ token ∈ s.endToken :: input, s.symbol token < g.symbols)
    (hinput : ∀ token ∈ s.endToken :: input, P token) (hmemo : I [] memo) {token : τ}
    (h : (run (Tables.build g) s fuel index input memo).result = .ok token) :
    I [token] (run (Tables.build g) s fuel index input memo).memo := by
  obtain ⟨bottom, n, d, hstart, hn, hmoves, hstack, hd, -⟩ := exists_moves_of_run ha hlawful hx h
  have hend := hinput _ List.mem_cons_self
  have hI := hI.moves hs hhands hend hmoves
    (Config.forall_start hend (fun t ht => hinput t (List.mem_cons_of_mem _ ht)) bottom memo)
    (by rwa [Config.start_stack, Config.start_memo])
  obtain ⟨o, hstop, ho⟩ := Config.memo_of_accept hs hd hstack
  rw [run, hstart]
  dsimp only
  rw [hmoves.leads.turns_of_stop hstop hn, ho, ← hstack]
  exact hI

end Formula.LR
