import Formula.LR.Outline
import Formula.Proofs.LR.Table

/-!
# Turns and what they leave behind

A turn carries out one action, the one in the table or the one that an open choice was settled with:
`Config.decision`. The decisions along a run tell which tokens were shifted and by which productions was
reduced; `history` lists the parser before each of its turns, so that they can be read off.

`Lawful` is what a parser asks of a language: an open choice is settled by one of its two sides or refused,
and a reduction that succeeds replaces the phrase on the stack by one token of the left-hand side. For a
lawful language every decision is sanctioned by the items of the state (`sanctioned_decision`).
-/

namespace Formula.LR

variable {τ σ ε : Type}

/-- The token in a place of the input; behind it stand end tokens. -/
def Semantics.stream (s : Semantics τ σ ε) (input : List τ) (n : Nat) : τ := input[n]?.getD s.endToken

theorem Semantics.forall_stream {P : τ → Prop} (s : Semantics τ σ ε) {input : List τ}
    (h : ∀ token ∈ s.endToken :: input, P token) (n : Nat) : P (s.stream input n) := by
  rw [stream]
  cases hn : input[n]? with
  | none => exact h _ List.mem_cons_self
  | some a => exact h _ (List.mem_cons_of_mem _ (List.mem_of_getElem? hn))

/-- What the tables ask of a language. -/
structure Semantics.Lawful (s : Semantics τ σ ε) (t : Tables) : Prop where
  choose : ∀ {number next stack rest memo action memo'},
    s.choose number next stack rest memo = (.ok action, memo') →
      action = (t.choice number).1 ∨ action = (t.choice number).2 ∨ action = .error
  reduce : ∀ {number next stack memo stack' memo' p}, t.grammar.productions[number]? = some p →
    p.rhs.length ≤ stack.length → s.reduce number next stack memo = (.ok stack', memo') →
      ∃ token, s.symbol token = p.lhs ∧ stack' = token :: stack.drop p.rhs.length

section

variable (t : Tables) (s : Semantics τ σ ε)

namespace Config

variable (c : Config τ σ)

/-- The action that a turn carries out. -/
def decision : Action :=
  match t.lookup c.state (s.symbol c.next) with
  | .ambiguous number =>
    match (s.choose number c.next c.stack c.rest c.memo).1 with
    | .ok action => action
    | .error _ => .error
  | action => action

/-- The token that is shifted next. -/
def shifted? : Option τ :=
  match c.decision t s with
  | .shift _ => some c.next
  | _ => none

/-- The next token is shifted, and the tables leave the choice open. -/
def shiftsByChoice : Bool :=
  match t.lookup c.state (s.symbol c.next) with
  | .ambiguous _ => (c.shifted? t s).isSome
  | _ => false

/-- The production that is reduced by next. -/
def reduced? : Option Nat :=
  match c.decision t s with
  | .reduce production => some production
  | _ => none

end Config

/-- The parser before each of its turns. -/
def history : Nat → Config τ σ → List (Config τ σ)
  | 0, _ => []
  | fuel + 1, c =>
    c :: match c.step t s with
      | .go c => history fuel c
      | .stop _ => []

/-- The parser before each turn of a run. -/
def historyOf (fuel goal : Nat) (input : List τ) (memo : σ) : List (Config τ σ) :=
  match t.startState? goal with
  | none => []
  | some state => history t s fuel (Config.start s state input memo)

/-- The tokens that were shifted, in order. -/
def shiftedIn (turns : List (Config τ σ)) : List τ := turns.filterMap (Config.shifted? t s)

/-- The productions that were reduced by, in order. -/
def reducedIn (turns : List (Config τ σ)) : List Nat := turns.filterMap (Config.reduced? t s)

end

variable {t : Tables} {s : Semantics τ σ ε}

theorem shiftedIn_cons (c : Config τ σ) (turns : List (Config τ σ)) :
    shiftedIn t s (c :: turns) = (c.shifted? t s).toList ++ shiftedIn t s turns := by
  rw [shiftedIn, List.filterMap_cons]
  cases c.shifted? t s <;> rfl

theorem reducedIn_cons (c : Config τ σ) (turns : List (Config τ σ)) :
    reducedIn t s (c :: turns) = (c.reduced? t s).toList ++ reducedIn t s turns := by
  rw [reducedIn, List.filterMap_cons]
  cases c.reduced? t s <;> rfl

/-! ## One turn -/

namespace Config

variable {c : Config τ σ}

/-- A turn ends the run where the language settles an open choice with an error; every other turn carries out its
decision. -/
theorem step_cases (t : Tables) (s : Semantics τ σ ε) (c : Config τ σ) :
    (∃ number e stats memo, t.lookup c.state (s.symbol c.next) = .ambiguous number ∧
        s.choose number c.next c.stack c.rest c.memo = (.error e, memo) ∧
        c.step t s = .stop ⟨.error e, stats, memo⟩) ∨
      ∃ stats memo, c.step t s = ({ c with stats, memo } : Config τ σ).act t s (c.decision t s) := by
  unfold step decision
  cases t.lookup c.state (s.symbol c.next) with
  | ambiguous number =>
    dsimp only
    cases hc : s.choose number c.next c.stack c.rest c.memo with
    | mk answer memo =>
      cases answer with
      | error e => exact .inl ⟨number, e, _, memo, rfl, hc, rfl⟩
      | ok action => exact .inr ⟨_, _, rfl⟩
  | _ => exact .inr ⟨c.stats, c.memo, rfl⟩

/-- A turn ends the run with an error or carries out its decision. -/
theorem step_eq (t : Tables) (s : Semantics τ σ ε) (c : Config τ σ) :
    (∃ e stats memo, c.step t s = .stop ⟨.error e, stats, memo⟩) ∨
      ∃ stats memo, c.step t s = ({ c with stats, memo } : Config τ σ).act t s (c.decision t s) := by
  rcases step_cases t s c with ⟨_, e, stats, memo, -, -, h⟩ | h
  · exact .inl ⟨e, stats, memo, h⟩
  · exact .inr h

/-- For a language that settles every choice and remembers nothing of it, a turn carries out its decision. -/
theorem step_eq_act (h : ∀ number next stack rest memo, ∃ action,
    s.choose number next stack rest memo = (.ok action, memo)) (t : Tables) (c : Config τ σ) :
    ∃ stats, c.step t s = ({ c with stats } : Config τ σ).act t s (c.decision t s) := by
  unfold step decision
  cases t.lookup c.state (s.symbol c.next) with
  | ambiguous number =>
    obtain ⟨action, ha⟩ := h number c.next c.stack c.rest c.memo
    dsimp only
    rw [ha]
    exact ⟨_, rfl⟩
  | _ => exact ⟨c.stats, rfl⟩

theorem decision_of_lookup {a : Action} (h : t.lookup c.state (s.symbol c.next) = a) (ha : ∀ k, a ≠ .ambiguous k) :
    c.decision t s = a := by
  unfold decision
  rw [h]
  cases a with
  | ambiguous k => exact absurd rfl (ha k)
  | _ => rfl

theorem decision_of_ambiguous {k : Nat} {a : Action} {memo : σ}
    (h : t.lookup c.state (s.symbol c.next) = .ambiguous k)
    (hc : s.choose k c.next c.stack c.rest c.memo = (.ok a, memo)) : c.decision t s = a := by
  unfold decision
  rw [h]
  dsimp only
  rw [hc]

theorem shiftsByChoice_of_shift {k n : Nat} (h : t.lookup c.state (s.symbol c.next) = .ambiguous k)
    (hd : c.decision t s = .shift n) : c.shiftsByChoice t s = true := by
  unfold shiftsByChoice shifted?
  rw [h, hd]
  rfl

theorem exists_ambiguous_of_shiftsByChoice (h : c.shiftsByChoice t s = true) :
    ∃ k, t.lookup c.state (s.symbol c.next) = .ambiguous k := by
  unfold shiftsByChoice at h
  split at h
  · exact ⟨_, ‹_›⟩
  · cases h

/-- What a turn decides depends on the state, on the next symbol and on how the choices are settled. -/
theorem decision_congr {τ' σ' ε' : Type} {s' : Semantics τ' σ' ε'} {d : Config τ' σ'} (hstate : c.state = d.state)
    (hnext : s.symbol c.next = s'.symbol d.next)
    (hchoose : ∀ number, ∃ action memo memo', s.choose number c.next c.stack c.rest c.memo = (.ok action, memo) ∧
      s'.choose number d.next d.stack d.rest d.memo = (.ok action, memo')) :
    c.decision t s = d.decision t s' := by
  unfold decision
  rw [hstate, hnext]
  cases t.lookup d.state (s'.symbol d.next) with
  | ambiguous number =>
    obtain ⟨action, memo, memo', hc, hd⟩ := hchoose number
    dsimp only
    rw [hc, hd]
  | _ => rfl

/-- The turns that lead to another one: a shift, or a reduction that the tables know how to go on from. -/
theorem act_eq_go {a : Action} {c' : Config τ σ} (h : c.act t s a = .go c') :
    (∃ state, a = .shift state ∧ c' = c.shift s state) ∨
      ∃ number p stack top below state stats memo, a = .reduce number ∧
        t.grammar.productions[number]? = some p ∧
        s.reduce number c.next c.stack c.memo = (.ok stack, memo) ∧
        c.states.drop p.rhs.length = top :: below ∧ t.lookup top p.lhs = .goto state ∧
        c' = ⟨state :: top :: below, stack, c.next, c.rest, stats, memo⟩ := by
  unfold act at h
  split at h
  · cases h
    exact .inl ⟨_, rfl, rfl⟩
  · refine .inr ?_
    unfold reduce at h
    split at h
    · cases h
    · rename_i stack memo hr
      split at h
      · rename_i p hp
        unfold settle at h
        split at h
        · cases h
        · rename_i top below hd
          split at h
          · cases h
          · split at h
            · rename_i state hl
              cases h
              exact ⟨_, p, stack, top, below, state, _, memo, rfl, hp, hr, hd, hl, rfl⟩
            · cases h
      · cases h
  · unfold accept at h
    split at h <;> cases h
  · cases h

/-- A turn ends the run with a token only by accepting the one on the stack. -/
theorem act_eq_stop {a : Action} {o : Outcome τ σ ε} {token : τ} (h : c.act t s a = .stop o)
    (ho : o.result = .ok token) : a = .accept ∧ c.stack = [token] := by
  unfold act at h
  split at h
  · cases h
  · unfold reduce at h
    split at h
    · cases h
      cases ho
    · split at h
      · unfold settle at h
        split at h
        · cases h
          cases ho
        · split at h
          · cases h
            cases ho
          · split at h
            · cases h
            · cases h
              cases ho
      · cases h
        cases ho
  · unfold accept at h
    split at h
    · rename_i hs
      cases h
      cases ho
      exact ⟨rfl, hs⟩
    · cases h
      cases ho
  · cases h
    cases ho

end Config

/-- For a lawful language, what a turn carries out is sanctioned by the items of the state. -/
theorem sanctioned_decision {g : Grammar} (hs : s.Lawful (Tables.build g)) {c : Config τ σ} {q : State}
    (hq : (g.states g.itemTable)[c.state]? = some q) (hx : s.symbol c.next < g.symbols) :
    g.Sanctioned q (s.symbol c.next) (c.decision (Tables.build g) s) := by
  rcases lookup_sanctioned hq hx with h | ⟨number, hl, h₁, h₂⟩
  · have hn : ∀ number, (Tables.build g).lookup c.state (s.symbol c.next) ≠ .ambiguous number := by
      intro number hl
      rw [hl] at h
      cases h
    unfold Config.decision
    split
    · rename_i hl
      exact absurd hl (hn _)
    · exact h
  · rw [Config.decision, hl]
    dsimp only
    generalize hc : s.choose number c.next c.stack c.rest c.memo = answer
    obtain ⟨answer, memo⟩ := answer
    cases answer with
    | error e => exact .error
    | ok action =>
      rcases hs.choose hc with rfl | rfl | rfl
      · exact h₁
      · exact h₂
      · exact .error

/-- Outlines are lawful, unless they are told not to be. -/
theorem Outline.lawful (t : Tables) (policy : Policy) : (semantics t policy .proper).Lawful t where
  choose := by
    intro number next stack rest memo action memo' h
    cases h
    cases policy with
    | shift => exact .inl rfl
    | reduce => exact .inr (.inl rfl)
    | refuse => exact .inr (.inr rfl)
  reduce := by
    intro number next stack memo stack' memo' p hp hl h
    change Outline.reduce t .proper number next stack memo = _ at h
    unfold Outline.reduce at h
    split at h
    · cases h
    · rw [hp] at h
      dsimp only at h
      rw [if_neg (Nat.not_lt_of_le hl)] at h
      cases h
      exact ⟨_, rfl, rfl⟩

/-! ## The next token -/

/-- The parser is at a place of the input. -/
def Config.At (s : Semantics τ σ ε) (input : List τ) (n : Nat) (c : Config τ σ) : Prop :=
  c.next = s.stream input n ∧ c.rest = input.drop (n + 1)

theorem Config.advance_at {input : List τ} {n : Nat} {c : Config τ σ} (h : c.rest = input.drop n) :
    (c.advance s).At s input n := by
  unfold advance
  cases hn : input[n]? with
  | none =>
    have hl := List.getElem?_eq_none_iff.mp hn
    rw [h, List.drop_eq_nil_of_le hl]
    refine ⟨by rw [Semantics.stream, hn]; rfl, ?_⟩
    rw [List.drop_eq_nil_of_le (by omega)]
  | some a =>
    obtain ⟨hl, rfl⟩ := List.getElem?_eq_some_iff.mp hn
    rw [h, List.drop_eq_getElem_cons hl]
    exact ⟨by rw [Semantics.stream, hn]; rfl, rfl⟩

/-! ## Many turns -/

/-- The parser comes from one configuration to another in a number of turns. -/
inductive Leads (t : Tables) (s : Semantics τ σ ε) : Nat → Config τ σ → Config τ σ → Prop where
  | refl (c : Config τ σ) : Leads t s 0 c c
  | go {n : Nat} {c c' d : Config τ σ} (h : c.step t s = .go c') (hd : Leads t s n c' d) :
      Leads t s (n + 1) c d

theorem Leads.one {c d : Config τ σ} (h : c.step t s = .go d) : Leads t s 1 c d := .go h (.refl d)

theorem Leads.trans {m n : Nat} {c d e : Config τ σ} (hc : Leads t s m c d) (hd : Leads t s n d e) :
    Leads t s (m + n) c e := by
  induction hc with
  | refl => rwa [Nat.zero_add]
  | go h _ ih =>
    rw [Nat.succ_add]
    exact .go h (ih hd)

/-- A run uses up its fuel, or comes to the turn that ends it. -/
theorem turns_cases (t : Tables) (s : Semantics τ σ ε) (fuel : Nat) (c : Config τ σ) :
    (∃ d, Leads t s fuel c d ∧ turns t s fuel c = ⟨.error (s.fault .stalled), d.stats, d.memo⟩) ∨
      ∃ n < fuel, ∃ d, Leads t s n c d ∧ d.step t s = .stop (turns t s fuel c) := by
  induction fuel generalizing c with
  | zero => exact .inl ⟨c, .refl c, rfl⟩
  | succ fuel ih =>
    rw [turns]
    cases hc : c.step t s with
    | stop o => exact .inr ⟨0, Nat.succ_pos fuel, c, .refl c, hc⟩
    | go c' =>
      rcases ih c' with ⟨d, hd, ho⟩ | ⟨n, hn, d, hd, ho⟩
      · exact .inl ⟨d, .go hc hd, ho⟩
      · exact .inr ⟨n + 1, Nat.succ_lt_succ hn, d, .go hc hd, ho⟩

/-- What is in the history was come to within the fuel. -/
theorem exists_leads_of_mem_history {t : Tables} {fuel : Nat} {d : Config τ σ} (h : d ∈ history t s fuel c) :
    ∃ n < fuel, Leads t s n c d := by
  induction fuel generalizing c with
  | zero => cases h
  | succ fuel ih =>
    rw [history] at h
    rcases List.mem_cons.mp h with rfl | h
    · exact ⟨0, Nat.succ_pos fuel, .refl d⟩
    · cases hc : c.step t s with
      | stop o =>
        rw [hc] at h
        cases h
      | go c' =>
        rw [hc] at h
        obtain ⟨n, hn, hd⟩ := ih h
        exact ⟨n + 1, Nat.succ_lt_succ hn, .go hc hd⟩

/-- The history of turns that all lead on has as many entries. -/
theorem Leads.length_history {t : Tables} {n : Nat} {d : Config τ σ} (h : Leads t s n c d) :
    (history t s n c).length = n := by
  induction h with
  | refl => rfl
  | go hc _ ih => rw [history, hc, List.length_cons, ih]

/-- The turns that lead on can be taken off the fuel. -/
theorem Leads.turns {n fuel : Nat} {c d : Config τ σ} (h : Leads t s n c d) :
    LR.turns t s (n + fuel) c = LR.turns t s fuel d := by
  induction h with
  | refl => rw [Nat.zero_add]
  | go h _ ih =>
    rw [Nat.succ_add, LR.turns, h]
    exact ih

/-- More turns than lead to the last one change nothing. -/
theorem Leads.turns_of_stop {n fuel : Nat} {c last : Config τ σ} {o : Outcome τ σ ε} (h : Leads t s n c last)
    (hstop : last.step t s = .stop o) (hf : n < fuel) : LR.turns t s fuel c = o := by
  obtain ⟨k, rfl⟩ : ∃ k, fuel = n + (k + 1) := ⟨fuel - n - 1, by omega⟩
  rw [h.turns, LR.turns, hstop]

/-- Where no more than some number of turns lead on, there is a last one, and with all fuel that is enough the outcome
is that of this turn. -/
theorem exists_last {t : Tables} {s : Semantics τ σ ε} {c : Config τ σ} {bound : Nat}
    (h : ∀ n d, Leads t s n c d → n ≤ bound) :
    ∃ n ≤ bound, ∃ last o, Leads t s n c last ∧ last.step t s = .stop o ∧ ∀ fuel > n, turns t s fuel c = o := by
  rcases turns_cases t s (bound + 1) c with ⟨d, hd, -⟩ | ⟨n, -, last, hlast, hstop⟩
  · exact absurd (h _ d hd) (Nat.not_succ_le_self bound)
  · exact ⟨n, h n last hlast, last, _, hlast, hstop, fun _ hf => hlast.turns_of_stop hstop hf⟩

/-- What the parser comes to within the fuel is in the history. -/
theorem Leads.mem_history {n fuel : Nat} {c d : Config τ σ} (h : Leads t s n c d) (hn : n < fuel) :
    d ∈ history t s fuel c := by
  induction h generalizing fuel with
  | refl c =>
    obtain ⟨fuel, rfl⟩ := Nat.exists_eq_succ_of_ne_zero (Nat.ne_zero_of_lt hn)
    exact List.mem_cons_self
  | go h _ ih =>
    obtain ⟨fuel, rfl⟩ := Nat.exists_eq_succ_of_ne_zero (Nat.ne_zero_of_lt hn)
    rw [history, h]
    exact List.mem_cons_of_mem _ (ih (Nat.lt_of_succ_lt_succ hn))

namespace Config

variable {c : Config τ σ}

theorem step_shift {n : Nat} (h : t.lookup c.state (s.symbol c.next) = .shift n) :
    c.step t s = .go (c.shift s n) := by
  rw [step, h]
  rfl

theorem step_reduce {number : Nat} (h : t.lookup c.state (s.symbol c.next) = .reduce number) :
    c.step t s = c.act t s (.reduce number) := by
  rw [step, h]

/-- An open choice that the language settles. -/
theorem step_ambiguous {number : Nat} {action : Action} {memo : σ}
    (h : t.lookup c.state (s.symbol c.next) = .ambiguous number)
    (hc : s.choose number c.next c.stack c.rest c.memo = (.ok action, memo)) :
    ∃ stats, c.step t s = ({ c with stats, memo } : Config τ σ).act t s action := by
  rw [step, h]
  dsimp only
  rw [hc]
  exact ⟨_, rfl⟩

theorem step_accept {token : τ} (h : t.lookup c.state (s.symbol c.next) = .accept)
    (hs : c.stack = [token]) : c.step t s = .stop ⟨.ok token, c.stats, c.memo⟩ := by
  rw [step, h]
  dsimp only [act, accept]
  rw [hs]

/-- A reduction puts the state behind the left-hand side on top of the states below the phrase. -/
theorem act_reduce {number n : Nat} {p : Production} {token : τ} {memo : σ}
    (hp : t.grammar.productions[number]? = some p)
    (hr : s.reduce number c.next c.stack c.memo = (.ok (token :: c.stack.drop p.rhs.length), memo))
    (hl : (c.states.drop p.rhs.length).length = (c.stack.drop p.rhs.length).length + 1)
    (hn : t.lookup ((c.states.drop p.rhs.length).headD 0) p.lhs = .goto n) :
    c.act t s (.reduce number) =
      .go ⟨n :: c.states.drop p.rhs.length, token :: c.stack.drop p.rhs.length, c.next, c.rest,
        { c.stats with reductions := c.stats.reductions + 1 }, memo⟩ := by
  rw [act, reduce, hr]
  dsimp only
  rw [hp]
  dsimp only [settle]
  cases hd : c.states.drop p.rhs.length with
  | nil =>
    rw [hd] at hl
    cases hl
  | cons top below =>
    rw [hd] at hl hn
    rw [List.headD_cons] at hn
    rw [List.length_cons] at hl
    rw [List.length_cons, ← hl]
    simp [hn]

end Config

/-! ## What was shifted -/

theorem Leads.exists_last {n : Nat} {c d : Config τ σ} (h : Leads t s (n + 1) c d) :
    ∃ e, Leads t s n c e ∧ e.step t s = .go d := by
  generalize hk : n + 1 = k at h
  induction h generalizing n with
  | refl => cases hk
  | @go k c c' d hc hd ih =>
    obtain rfl := Nat.succ.inj hk
    cases n with
    | zero =>
      cases hd
      exact ⟨c, .refl c, hc⟩
    | succ n =>
      obtain ⟨e, he, hlast⟩ := ih rfl
      exact ⟨e, .go hc he, hlast⟩

/-- The history goes on from where the turns lead to. -/
theorem Leads.history {n : Nat} {c d : Config τ σ} (h : Leads t s n c d) (fuel : Nat) :
    LR.history t s (n + fuel) c = LR.history t s n c ++ LR.history t s fuel d := by
  induction h with
  | refl => rw [Nat.zero_add]; rfl
  | go hc _ ih => rw [Nat.succ_add, LR.history, LR.history, hc, List.cons_append, ← ih]

/-- The turns before the last one in the history lead to it. -/
theorem exists_leads_of_getLast? {fuel : Nat} {c d : Config τ σ} (h : (history t s fuel c).getLast? = some d) :
    ∃ n < fuel, Leads t s n c d ∧ history t s fuel c = history t s n c ++ [d] := by
  induction fuel generalizing c with
  | zero => cases h
  | succ fuel ih =>
    rw [history] at h ⊢
    cases hc : c.step t s with
    | stop o =>
      rw [hc] at h
      cases h
      exact ⟨0, Nat.succ_pos fuel, .refl c, rfl⟩
    | go c' =>
      rw [hc, List.getLast?_cons] at h
      dsimp only at h ⊢
      cases hl : (history t s fuel c').getLast? with
      | none =>
        rw [hl] at h
        cases h
        rw [List.getLast?_eq_none_iff.mp hl]
        exact ⟨0, Nat.succ_pos fuel, .refl c, rfl⟩
      | some e =>
        rw [hl] at h
        cases h
        obtain ⟨n, hn, hd, hhistory⟩ := ih hl
        refine ⟨n + 1, Nat.succ_lt_succ hn, .go hc hd, ?_⟩
        rw [history, hc, hhistory, List.cons_append]

/-- A turn that leads on shifts the token in the place of the parser, or stays there. -/
theorem Config.At.go {input : List τ} {n : Nat} {c c' : Config τ σ} (h : c.At s input n) (hc : c.step t s = .go c') :
    c.shifted? t s = none ∧ c'.At s input n ∨ c.shifted? t s = some (s.stream input n) ∧ c'.At s input (n + 1) := by
  obtain ⟨e, stats, memo, he⟩ | ⟨stats, memo, he⟩ := Config.step_eq t s c
  · rw [he] at hc
    cases hc
  rw [he] at hc
  rcases Config.act_eq_go hc with ⟨m, hm, rfl⟩ | ⟨number, p, stack, top, below, m, _, _, hm, -, -, -, -, rfl⟩
  · refine .inr ⟨?_, Config.advance_at h.2⟩
    rw [Config.shifted?, hm, h.1]
  · refine .inl ⟨?_, h⟩
    rw [Config.shifted?, hm]

/-- The tokens that were shifted are those of the input from the place of the parser on. -/
theorem Leads.shiftedIn_eq {input : List τ} {n k : Nat} {c d : Config τ σ} (h : Leads t s k c d) (hc : c.At s input n) :
    d.At s input (n + (shiftedIn t s (LR.history t s k c)).length) ∧
      shiftedIn t s (LR.history t s k c) =
        (List.range (shiftedIn t s (LR.history t s k c)).length).map fun j => s.stream input (n + j) := by
  induction h generalizing n with
  | refl => exact ⟨hc, rfl⟩
  | go hstep _ ih =>
    rw [LR.history, hstep, shiftedIn_cons]
    rcases hc.go hstep with ⟨hs, hc'⟩ | ⟨hs, hc'⟩
    · rw [hs]
      exact ih hc'
    · obtain ⟨hd, hl⟩ := ih hc'
      rw [hs, Option.toList_some, List.singleton_append, List.length_cons]
      refine ⟨by rwa [Nat.add_comm _ 1, ← Nat.add_assoc], ?_⟩
      conv_lhs => rw [hl]
      rw [List.range_succ_eq_map, List.map_cons, List.map_map, Nat.add_zero]
      refine congrArg _ (List.map_congr_left fun j _ => ?_)
      rw [Function.comp, Nat.add_assoc, Nat.add_comm 1]

end Formula.LR
