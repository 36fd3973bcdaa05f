import Mathlib.Data.List.Forall2
import Formula.Proofs.LR.Safety

/-!
# Parsers in step

Two languages over one grammar may differ in what they ask and remember of a token, and still do the same with an input.
`Semantics.InStep` states what this takes: a relation `R` between the tokens of the inputs, one `S` between those on the
stacks, and one `E` between errors, so that both settle choices alike and build alike from phrases alike. Then one turn
keeps two parsers in step or ends both runs alike (`Config.InStep.step`), and so do any number of turns
(`Reads.turns_inStep`, `run_inStep`).

A language may rely on the phrase of a reduction being a right-hand side: what the first parser has read sees to that
(`Reads.phrase_of_decision`), and the second has the same symbols on its stack.
-/

namespace Formula.LR

variable {τ σ ε α β : Type}

/-- Both answers are errors, or both are none, and what they hold is related. What is remembered is the same. -/
inductive Concur (E : ε → ε → Prop) (V : α → β → Prop) : Except ε α × σ → Except ε β × σ → Prop where
  | ok {a : α} {b : β} (h : V a b) (memo : σ) : Concur E V (.ok a, memo) (.ok b, memo)
  | error {e e' : ε} (h : E e e') (memo : σ) : Concur E V (.error e, memo) (.error e', memo)

theorem Concur.imp {E : ε → ε → Prop} {V W : α → β → Prop} (hVW : ∀ a b, V a b → W a b) {x : Except ε α × σ}
    {y : Except ε β × σ} (h : Concur E V x y) : Concur E W x y := by
  cases h with
  | ok h memo => exact .ok (hVW _ _ h) memo
  | error h memo => exact .error h memo

/-- What is related by equality is equal. -/
theorem Concur.eq {x y : Except ε α × σ} (h : Concur (· = ·) (· = ·) x y) : x = y := by
  cases h with
  | ok h memo => rw [h]
  | error h memo => rw [h]

/-- What two languages have in common that do the same with tokens that are related. -/
structure Semantics.InStep (g : Grammar) (R S : τ → τ → Prop) (E : ε → ε → Prop) (s s' : Semantics τ σ ε) : Prop where
  symbol : ∀ {a b}, R a b → s.symbol a = s'.symbol b
  shift : ∀ {a b}, R a b → g.IsTerminal (s.symbol a) → S a b
  endToken : R s.endToken s'.endToken
  choose : ∀ {number next next' stack stack' rest rest' memo}, R next next' → List.Forall₂ S stack stack' →
    List.Forall₂ R rest rest' →
      Concur E (· = ·) (s.choose number next stack rest memo) (s'.choose number next' stack' rest' memo)
  reduce : ∀ {number p next next' stack stack' memo}, g.productions[number]? = some p →
    (stack.map s.symbol).take p.rhs.length = p.rhs.reverse → R next next' → List.Forall₂ S stack stack' →
      Concur E (List.Forall₂ S) (s.reduce number next stack memo) (s'.reduce number next' stack' memo)
  unexpected : ∀ {a b}, R a b → E (s.unexpected a) (s'.unexpected b)
  fault : ∀ f, E (s.fault f) (s'.fault f)

variable (R S : τ → τ → Prop) (E : ε → ε → Prop)

/-- The two parsers are in the same states, and have related tokens on their stacks and before them. -/
structure Config.InStep (c d : Config τ σ) : Prop where
  states : c.states = d.states
  stack : List.Forall₂ S c.stack d.stack
  next : R c.next d.next
  rest : List.Forall₂ R c.rest d.rest
  stats : c.stats = d.stats
  memo : c.memo = d.memo

/-- Both runs ended alike. -/
def Outcome.InStep (o o' : Outcome τ σ ε) : Prop :=
  Concur E S (o.result, o.stats, o.memo) (o'.result, o'.stats, o'.memo)

/-- The turns lead to parsers in step, or both end the run alike. -/
inductive Turn.InStep : Turn τ σ ε → Turn τ σ ε → Prop where
  | go {c d : Config τ σ} (h : c.InStep R S d) : InStep (.go c) (.go d)
  | stop {o o' : Outcome τ σ ε} (h : o.InStep S E o') : InStep (.stop o) (.stop o')

variable {R S E} {g : Grammar} {t : Tables} {s s' : Semantics τ σ ε} {c d : Config τ σ}

/-! ## One turn -/

namespace Config.InStep

theorem update (h : c.InStep R S d) {stats stats' : Stats} (hstats : stats = stats') (memo : σ) :
    ({ c with stats, memo } : Config τ σ).InStep R S { d with stats := stats', memo } :=
  ⟨h.states, h.stack, h.next, h.rest, hstats, rfl⟩

theorem fail (h : c.InStep R S d) {e e' : ε} (he : E e e') : Turn.InStep R S E (c.fail e) (d.fail e') := by
  refine .stop ?_
  rw [Outcome.InStep, h.stats, h.memo]
  exact .error he _

theorem start (hs : s.InStep g R S E s') (bottom : Nat) {input input' : List τ} (h : List.Forall₂ R input input')
    (memo : σ) : (Config.start s bottom input memo).InStep R S (Config.start s' bottom input' memo) := by
  cases h with
  | nil => exact ⟨rfl, .nil, hs.endToken, .nil, rfl, rfl⟩
  | cons hnext hrest => exact ⟨rfl, .nil, hnext, hrest, rfl, rfl⟩

theorem advance (hs : s.InStep g R S E s') (h : c.InStep R S d) : (c.advance s).InStep R S (d.advance s') := by
  obtain ⟨hstates, hstack, -, hrest, hstats, hmemo⟩ := h
  unfold Config.advance
  cases hrest' : c.rest with
  | nil =>
    rw [hrest', List.forall₂_nil_left_iff] at hrest
    rw [hrest, hstats]
    exact ⟨hstates, hstack, hs.endToken, .nil, rfl, hmemo⟩
  | cons next rest =>
    rw [hrest', List.forall₂_cons_left_iff] at hrest
    obtain ⟨next', rest', hnext, hbehind, hd⟩ := hrest
    rw [hd, hstats]
    exact ⟨hstates, hstack, hnext, hbehind, rfl, hmemo⟩

theorem shift (hs : s.InStep g R S E s') (h : c.InStep R S d) (hterminal : g.IsTerminal (s.symbol c.next)) (n : Nat) :
    (c.shift s n).InStep R S (d.shift s' n) := by
  refine InStep.advance hs ⟨?_, .cons (hs.shift h.next hterminal) h.stack, h.next, h.rest, ?_, h.memo⟩
  · rw [h.states]
  · rw [h.stats]

theorem settle (hs : s.InStep g R S E s') (h : c.InStep R S d) (p : Production) {stack stack' : List τ}
    (hstack : List.Forall₂ S stack stack') : Turn.InStep R S E (c.settle t s p stack) (d.settle t s' p stack') := by
  unfold Config.settle
  rw [h.states, hstack.length_eq]
  cases d.states.drop p.rhs.length with
  | nil => exact h.fail (hs.fault _)
  | cons top below =>
    dsimp only
    split
    · exact h.fail (hs.fault _)
    · cases t.lookup top p.lhs with
      | goto n => exact .go ⟨rfl, hstack, h.next, h.rest, by rw [h.stats], h.memo⟩
      | _ => exact h.fail (hs.fault _)

theorem reduce (hs : s.InStep t.grammar R S E s') (h : c.InStep R S d) {number : Nat} {p : Production}
    (hp : t.grammar.productions[number]? = some p)
    (hphrase : (c.stack.map s.symbol).take p.rhs.length = p.rhs.reverse) :
    Turn.InStep R S E (c.reduce t s number) (d.reduce t s' number) := by
  have hbuilt : Concur E (List.Forall₂ S) (s.reduce number c.next c.stack c.memo)
      (s'.reduce number d.next d.stack c.memo) := hs.reduce hp hphrase h.next h.stack
  unfold Config.reduce
  rw [← h.memo, hp]
  generalize s.reduce number c.next c.stack c.memo = answer at hbuilt ⊢
  generalize s'.reduce number d.next d.stack c.memo = answer' at hbuilt ⊢
  cases hbuilt with
  | ok hstack memo => exact (h.update h.stats memo).settle hs p hstack
  | error he memo => exact (h.update h.stats memo).fail he

theorem accept (hs : s.InStep g R S E s') (h : c.InStep R S d) : Turn.InStep R S E (c.accept s) (d.accept s') := by
  unfold Config.accept
  cases hc : c.stack with
  | nil =>
    have hd := h.stack
    rw [hc, List.forall₂_nil_left_iff] at hd
    rw [hd]
    exact h.fail (hs.fault _)
  | cons token stack =>
    have hd := h.stack
    rw [hc, List.forall₂_cons_left_iff] at hd
    obtain ⟨token', stack', htoken, hstack, hd⟩ := hd
    rw [hd]
    cases hstack with
    | nil =>
      refine .stop ?_
      rw [Outcome.InStep, h.stats, h.memo]
      exact .ok htoken _
    | cons _ hrest =>
      dsimp only [List.length_cons]
      rw [hrest.length_eq]
      exact h.fail (hs.fault _)

theorem act (hs : s.InStep t.grammar R S E s') (h : c.InStep R S d) {a : Action}
    (hshift : ∀ n, a = .shift n → t.grammar.IsTerminal (s.symbol c.next))
    (hreduce : ∀ number, a = .reduce number → ∃ p, t.grammar.productions[number]? = some p ∧
      (c.stack.map s.symbol).take p.rhs.length = p.rhs.reverse) :
    Turn.InStep R S E (c.act t s a) (d.act t s' a) := by
  cases a with
  | shift n => exact .go (h.shift hs (hshift n rfl) n)
  | reduce number =>
    obtain ⟨p, hp, hphrase⟩ := hreduce number rfl
    exact h.reduce hs hp hphrase
  | accept => exact h.accept hs
  | _ => exact h.fail (hs.unexpected h.next)

/-- A turn keeps the parsers in step, or ends both runs alike, if what it shifts is a terminal and what it reduces is a
right-hand side. -/
theorem step (hs : s.InStep t.grammar R S E s') (h : c.InStep R S d)
    (hshift : ∀ n, c.decision t s = .shift n → t.grammar.IsTerminal (s.symbol c.next))
    (hreduce : ∀ number, c.decision t s = .reduce number → ∃ p, t.grammar.productions[number]? = some p ∧
      (c.stack.map s.symbol).take p.rhs.length = p.rhs.reverse) :
    Turn.InStep R S E (c.step t s) (d.step t s') := by
  have hstate : c.state = d.state := by rw [Config.state, Config.state, h.states]
  unfold Config.step
  unfold Config.decision at hshift hreduce
  rw [← hstate, ← hs.symbol h.next]
  cases hl : t.lookup c.state (s.symbol c.next) with
  | ambiguous number =>
    rw [hl] at hshift hreduce
    have hchosen : Concur E (· = ·) (s.choose number c.next c.stack c.rest c.memo)
        (s'.choose number d.next d.stack d.rest c.memo) := hs.choose h.next h.stack h.rest
    dsimp only at hshift hreduce ⊢
    rw [← h.memo, ← h.stats]
    generalize s.choose number c.next c.stack c.rest c.memo = answer at hchosen hshift hreduce ⊢
    generalize s'.choose number d.next d.stack d.rest c.memo = answer' at hchosen ⊢
    cases hchosen with
    | ok ha memo =>
      cases ha
      exact (h.update rfl memo).act hs hshift hreduce
    | error he memo => exact (h.update rfl memo).fail he
  | _ =>
    rw [hl] at hshift hreduce
    exact h.act hs hshift hreduce

end Config.InStep

/-! ## Many turns -/

section

variable {input input' : List τ} {bottom goal : Nat} {numbers : List Nat} {read : List τ}

/-- The phrase of a reduction is on top of the stack. -/
theorem Reads.phrase_of_decision (ha : g.Augmented) (hs : s.Lawful (Tables.build g)) {r : Production}
    (hb : (g.states g.itemTable)[bottom]? = some (g.start g.itemTable goal)) (hr : g.productions[goal]? = some r)
    (h : Reads g s input bottom numbers read c) (hx : s.symbol c.next < g.symbols) {number : Nat}
    (hd : c.decision (Tables.build g) s = .reduce number) :
    ∃ p, g.productions[number]? = some p ∧ (c.stack.map s.symbol).take p.rhs.length = p.rhs.reverse := by
  obtain ⟨q, hq⟩ := h.stacked.exists_top hb
  have hsanctioned := sanctioned_decision hs hq hx
  rw [hd] at hsanctioned
  cases hsanctioned with
  | reduce hp hi => exact ⟨_, hp, (h.phrase ha hb hr hq hp hi).2⟩

/-- Only terminals are shifted. -/
theorem Reads.isTerminal_of_decision (hs : s.Lawful (Tables.build g))
    (hb : (g.states g.itemTable)[bottom]? = some (g.start g.itemTable goal))
    (h : Reads g s input bottom numbers read c) (hx : s.symbol c.next < g.symbols) {n : Nat}
    (hd : c.decision (Tables.build g) s = .shift n) : g.IsTerminal (s.symbol c.next) := by
  obtain ⟨q, hq⟩ := h.stacked.exists_top hb
  have hsanctioned := sanctioned_decision hs hq hx
  rw [hd] at hsanctioned
  cases hsanctioned with
  | shift ht => exact ht

/-- Any number of turns keeps two parsers in step, or ends both runs alike. -/
theorem Reads.turns_inStep (ha : g.Augmented) (hs : s.Lawful (Tables.build g)) {r : Production}
    (hb : (g.states g.itemTable)[bottom]? = some (g.start g.itemTable goal)) (hr : g.productions[goal]? = some r)
    (hx : ∀ n, s.symbol (s.stream input n) < g.symbols) (hin : s.InStep g R S E s')
    (h : Reads g s input bottom numbers read c) (hcd : c.InStep R S d) (fuel : Nat) :
    (LR.turns (Tables.build g) s fuel c).InStep S E (LR.turns (Tables.build g) s' fuel d) := by
  induction fuel generalizing numbers read c d with
  | zero =>
    rw [LR.turns, LR.turns, Outcome.InStep, hcd.stats, hcd.memo]
    exact .error (hin.fault _) _
  | succ fuel ih =>
    have hn := h.place.1 ▸ hx read.length
    have hturn := hcd.step (t := Tables.build g) hin (fun _ => h.isTerminal_of_decision hs hb hn) fun _ =>
      h.phrase_of_decision ha hs hb hr hn
    rw [LR.turns, LR.turns]
    cases hc : c.step (Tables.build g) s with
    | stop o =>
      rw [hc] at hturn
      cases hd : d.step (Tables.build g) s' with
      | stop o' =>
        rw [hd] at hturn
        cases hturn with
        | stop ho => exact ho
      | go d' =>
        rw [hd] at hturn
        cases hturn
    | go c' =>
      rw [hc] at hturn
      cases hd : d.step (Tables.build g) s' with
      | stop o' =>
        rw [hd] at hturn
        cases hturn
      | go d' =>
        rw [hd] at hturn
        cases hturn with
        | go h' => exact ih (h.go ha.checked hs hn hc) h'

end

/-- Two languages in step do the same with inputs whose tokens are related. -/
theorem run_inStep (ha : g.Augmented) (hs : s.Lawful (Tables.build g)) (hin : s.InStep g R S E s') {index : Nat}
    (hi : index < g.goals.length) {input input' : List τ}
    (hx : ∀ token ∈ s.endToken :: input, s.symbol token < g.symbols) (h : List.Forall₂ R input input') (fuel : Nat)
    (memo : σ) :
    (run (Tables.build g) s fuel index input memo).InStep S E (run (Tables.build g) s' fuel index input' memo) := by
  have hgoal := List.getElem?_eq_getElem hi
  obtain ⟨r, -, hr, -⟩ := g.exists_goal ha (List.getElem_mem hi)
  rw [run_eq hi, run_eq hi]
  exact (Reads.start memo).turns_inStep ha hs (g.states_goal ha hgoal) hr (s.forall_stream hx) hin
    (.start hin index h memo) fuel

end Formula.LR
