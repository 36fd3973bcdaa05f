import Formula.Expr.Parse
import Formula.Proofs.Expr.Bars
import Formula.Proofs.Expr.Place
import Formula.Proofs.LR.Turn

/-!
# Turns of the notation parser

A scene is what matters of the parser between two turns: its stacks and the input. `Goes` says that the parser comes
from one scene to another, and in how many turns at most; what it counts and what it remembers on the way is left
open. There are two kinds of single turns: a token is shifted (`Goes.shift`), or a phrase that its rule can build a
tree from is reduced (`Goes.reduce`). In front of a bar the reduction is made where nothing else can be done, or as
long as a bar is open (`Settled`).
-/

namespace Formula

open LR (Config Leads)
open Rule (Shifts ShiftsAll Gotos Reduces)
open Text (Position Span)

/-! ## What a phrase builds -/

/-- An action that succeeds hands its result on. -/
theorem Build.bind_ok {α β : Type} {x : Build α} {f : α → Build β} {a : α} {names names' : List String}
    (h : x names = (.ok a, names')) : (x >>= f) names = f a names' := by
  show (match x names with
    | (a, names) => ExceptT.bindCont f a names) = _
  rw [h]
  rfl

/-- An action that fails ends what comes behind it. -/
theorem Build.bind_error {α β : Type} {x : Build α} {f : α → Build β} {e : Error} {names names' : List String}
    (h : x names = (.error e, names')) : (x >>= f) names = (.error e, names') := by
  show (match x names with
    | (a, names) => ExceptT.bindCont f a names) = _
  rw [h]
  rfl

namespace Phrase

variable {p : Phrase} {i : Nat} {t : Token}

theorem token_eq (ht : p.tokens[i]? = some t) : p.token i = pure t := by
  unfold token
  rw [ht]

theorem lexeme_eq (ht : p.tokens[i]? = some t) : p.lexeme i = pure t.lexeme := by
  unfold lexeme
  rw [token_eq ht]
  rfl

theorem expr_eq (ht : p.tokens[i]? = some t) {e : Expr} (he : t.payload = .expr e) : p.expr i = pure e := by
  unfold expr
  rw [token_eq ht, pure_bind, he]

theorem args_eq (ht : p.tokens[i]? = some t) {es : List Expr} (he : t.payload = .args es) :
    p.args i = pure es := by
  unfold args
  rw [token_eq ht, pure_bind, he]

end Phrase

namespace Setting

variable {s : Setting}

/-- The rule builds the payload from the phrase, whatever variables were met before. -/
def Builds (s : Setting) (p : Phrase) (r : Rule) (payload : Payload) : Prop :=
  ∀ names, ∃ names', s.build p r names = (.ok payload, names')

/-- A reduction builds from the phrase on top of the stack. -/
theorem reduce_eq_build {r : Rule} {lhs : Symbol} {rhs : List Symbol} {prec : Option LR.Prec}
    (hform : Rule.form? r.index = some ⟨r, lhs, rhs, prec⟩) {phrase below : List Token}
    (hp : phrase.length = rhs.length) (atEnd : Span) :
    s.reduce atEnd r.index (phrase.reverse ++ below) = do
      let payload ← s.build ⟨phrase, below.head?.map (·.symbol)⟩ r
      return ⟨lhs, "", Phrase.span ⟨phrase, below.head?.map (·.symbol)⟩ atEnd, payload⟩ :: below := by
  have hlen : phrase.reverse.length = rhs.length := by rw [List.length_reverse, hp]
  have htake : (phrase.reverse ++ below).take rhs.length = phrase.reverse := List.take_left' hlen
  have hdrop : (phrase.reverse ++ below).drop rhs.length = below := List.drop_left' hlen
  have hbelow : (phrase.reverse ++ below)[rhs.length]? = below.head? := by
    rw [List.getElem?_append_right (Nat.le_of_eq hlen), hlen, Nat.sub_self, List.head?_eq_getElem?]
  unfold reduce
  rw [hform]
  dsimp only
  rw [htake, hdrop, hbelow, List.reverse_reverse, if_neg (by rw [List.length_append]; omega)]

/-- A reduction puts what the rule builds in the place of the phrase. -/
theorem reduce_eq {r : Rule} {lhs : Symbol} {rhs : List Symbol} {prec : Option LR.Prec}
    (hform : Rule.form? r.index = some ⟨r, lhs, rhs, prec⟩) {phrase below : List Token}
    (hp : phrase.length = rhs.length) {payload : Payload} {names names' : List String}
    (hb : s.build ⟨phrase, below.head?.map (·.symbol)⟩ r names = (.ok payload, names')) (atEnd : Span) :
    s.reduce atEnd r.index (phrase.reverse ++ below) names =
      (.ok (⟨lhs, "", Phrase.span ⟨phrase, below.head?.map (·.symbol)⟩ atEnd, payload⟩ :: below), names') := by
  rw [reduce_eq_build hform hp]
  exact Build.bind_ok hb

/-- What the rule refuses to build is refused. -/
theorem reduce_eq_error {r : Rule} {lhs : Symbol} {rhs : List Symbol} {prec : Option LR.Prec}
    (hform : Rule.form? r.index = some ⟨r, lhs, rhs, prec⟩) {phrase below : List Token}
    (hp : phrase.length = rhs.length) {error : Error} {names names' : List String}
    (hb : s.build ⟨phrase, below.head?.map (·.symbol)⟩ r names = (.error error, names')) (atEnd : Span) :
    s.reduce atEnd r.index (phrase.reverse ++ below) names = (.error error, names') := by
  rw [reduce_eq_build hform hp]
  exact Build.bind_error hb

end Setting

/-! ## Scenes -/

/-- What matters of a parser: its stacks and the input, the next token in front. -/
structure Scene where
  states : List Nat
  stack : List Token
  input : List Token

/-- The parser is in a scene. -/
def Scene.Of (v : Scene) (c : Config Token (List String)) : Prop :=
  c.states = v.states ∧ c.stack = v.stack ∧ c.next :: c.rest = v.input

namespace Setting

/-- The parser comes from one scene to another in at most so many turns. -/
def Goes (s : Setting) (stop : Position) (turns : Nat) (v w : Scene) : Prop :=
  ∀ c, v.Of c → ∃ n ≤ turns, ∃ d, Leads Rule.tables (s.semantics stop) n c d ∧ w.Of d

namespace Goes

variable {s : Setting} {stop : Position} {v w u : Scene} {m n : Nat}

theorem refl (v : Scene) : s.Goes stop n v v :=
  fun c hc => ⟨0, Nat.zero_le n, c, .refl c, hc⟩

theorem trans (h : s.Goes stop m v w) (h' : s.Goes stop n w u) : s.Goes stop (m + n) v u := by
  intro c hc
  obtain ⟨i, hi, d, hd, hw⟩ := h c hc
  obtain ⟨j, hj, e, he, hu⟩ := h' d hw
  exact ⟨i + j, Nat.add_le_add hi hj, e, hd.trans he, hu⟩

theorem mono (h : s.Goes stop m v w) (hmn : m ≤ n) : s.Goes stop n v w := by
  intro c hc
  obtain ⟨i, hi, hd⟩ := h c hc
  exact ⟨i, hi.trans hmn, hd⟩

/-- One turn leads from every parser in a scene to one in another. -/
theorem of_step (h : ∀ c, v.Of c → ∃ d, c.step Rule.tables (s.semantics stop) = .go d ∧ w.Of d) :
    s.Goes stop 1 v w := by
  intro c hc
  obtain ⟨d, hd, hw⟩ := h c hc
  exact ⟨1, Nat.le_refl 1, d, .one hd, hw⟩

/-- A token is shifted. -/
theorem shift {top q : Nat} {states : List Nat} {stack : List Token} {t next : Token} {rest : List Token}
    (h : Shifts top t.symbol q) :
    s.Goes stop 1 ⟨top :: states, stack, t :: next :: rest⟩ ⟨q :: top :: states, t :: stack, next :: rest⟩ := by
  refine of_step fun c hc => ?_
  obtain ⟨hstates, hstack, hinput⟩ := hc
  obtain ⟨hnext, hrest⟩ := List.cons.inj hinput
  have hlookup : Rule.tables.lookup c.state ((s.semantics stop).symbol c.next) = .shift q := by
    rw [Config.state, hstates, hnext]
    exact h
  refine ⟨_, Config.step_shift hlookup, ?_⟩
  simp only [Scene.Of, Config.shift, Config.advance, hrest, hstates, hstack, hnext, and_self]

/-- A token is shifted, with more than one behind it. -/
theorem shift_append {top q : Nat} {states : List Nat} {stack : List Token} {t : Token} {tokens : List Token}
    {next : Token} {rest : List Token} (h : Shifts top t.symbol q) :
    s.Goes stop 1 ⟨top :: states, stack, t :: (tokens ++ next :: rest)⟩
      ⟨q :: top :: states, t :: stack, tokens ++ next :: rest⟩ := by
  obtain ⟨u, us, hus⟩ : ∃ u us, tokens ++ next :: rest = u :: us := List.exists_cons_of_ne_nil (by simp)
  rw [hus]
  exact shift h

variable (s stop) in
/-- Tokens are shifted one after the other. -/
theorem shifts (n : Nat) (states : List Nat) (stack : List Token) {tokens input : List Token} {x : Symbol}
    {xs : List Symbol} (htokens : tokens.map (·.symbol) = x :: xs) (h : ShiftsAll n (x :: xs)) (hinput : input ≠ []) :
    ∃ above : List Nat, above.length = xs.length ∧
      s.Goes stop (xs.length + 1) ⟨n :: states, stack, tokens ++ input⟩
        ⟨Place.follow n (x :: xs) :: (above ++ n :: states), tokens.reverse ++ stack, input⟩ := by
  obtain ⟨next, rest, rfl⟩ := List.exists_cons_of_ne_nil hinput
  induction xs generalizing n states stack tokens x with
  | nil =>
    obtain ⟨t, rfl, ht⟩ := List.map_eq_singleton_iff.mp htokens
    rw [Place.follow_cons, Place.follow_nil]
    exact ⟨[], rfl, shift (by rw [ht]; exact h.1)⟩
  | cons y ys ih =>
    obtain ⟨t, tokens, rfl, ht, htokens⟩ := List.map_eq_cons_iff.mp htokens
    obtain ⟨above, habove, hgo⟩ := ih (Rule.target n x) (n :: states) (t :: stack) htokens h.2
    refine ⟨above ++ [Rule.target n x], by rw [List.length_append, habove]; rfl, ?_⟩
    rw [Place.follow_cons]
    have hshift : s.Goes stop 1 ⟨n :: states, stack, t :: (tokens ++ next :: rest)⟩
        ⟨Rule.target n x :: n :: states, t :: stack, tokens ++ next :: rest⟩ :=
      shift_append (by rw [ht]; exact h.1)
    simpa [Nat.add_comm] using hshift.trans hgo

end Goes

/-- In front of a bar, a bar on the stack is open. -/
def Open (next : Token) (stack : List Token) : Prop :=
  next.symbol = .bar → 0 < Bars.openBars (stack.map (·.symbol))

theorem Open.append {next : Token} {stack : List Token} (h : Open next stack) (above : List Token) :
    Open next (above ++ stack) := by
  intro hx
  rw [List.map_append]
  exact Bars.openBars_append (h hx) _

theorem Open.of_ne {next : Token} (h : next.symbol ≠ .bar) (stack : List Token) : Open next stack :=
  fun hx => absurd hx h

/-- In the state a rule is reduced by in front of the token: whatever the stack is, or with an open bar below. -/
def Settled (n : Nat) (next : Token) (r : Rule) (below : List Token) : Prop :=
  Rule.tables.lookup n next.symbol.index = .reduce r.index ∨ Reduces n next.symbol r ∧ Open next below

/-- A turn reduces, at once or by the choice in front of a bar. -/
theorem step_reduce (s : Setting) (stop : Position) {c : Config Token (List String)} {r : Rule}
    {above below : List Token} (hstack : c.stack = above ++ below) (ha : above ≠ [])
    (hr : Settled c.state c.next r below) :
    ∃ stats memo, c.step Rule.tables (s.semantics stop) =
      ({ c with stats, memo } : Config Token (List String)).act Rule.tables (s.semantics stop)
        (.reduce r.index) := by
  rcases hr with hl | ⟨hr, ho⟩
  · exact ⟨c.stats, c.memo, Config.step_reduce hl⟩
  rcases Rule.reduction?_eq_some hr with hl | ⟨hx, number, hl, hc⟩
  · exact ⟨c.stats, c.memo, Config.step_reduce hl⟩
  · have hchoose := Bars.choose_eq_reduce hc (ho hx) (above.map (·.symbol)) (by simpa using ha)
      (c.rest.map (·.symbol))
    rw [← List.map_append, ← hstack, ← hx] at hchoose
    have hsettled : (s.semantics stop).choose number c.next c.stack c.rest c.memo =
        (.ok (.reduce r.index), c.memo) := by
      rw [← hchoose]
      rfl
    have hl : Rule.tables.lookup c.state ((s.semantics stop).symbol c.next) = .ambiguous number := hl
    obtain ⟨stats, hstep⟩ := Config.step_ambiguous hl hsettled
    exact ⟨stats, c.memo, hstep⟩

/-- The production of a rule in the tables. -/
theorem production_eq {r : Rule} {lhs : Symbol} {rhs : List Symbol} {prec : Option LR.Prec}
    (hform : Rule.form? r.index = some ⟨r, lhs, rhs, prec⟩) :
    Rule.tables.grammar.productions[r.index]? = some ⟨lhs.index, rhs.map Symbol.index, prec⟩ := by
  have htable : Rule.tables.grammar.productions =
      Rule.table.map fun f => ⟨f.lhs.index, f.rhs.map Symbol.index, f.prec⟩ := rfl
  have hform : Rule.table[r.index]? = some ⟨r, lhs, rhs, prec⟩ := hform
  rw [htable, List.getElem?_map, hform]
  rfl

/-- A phrase is reduced. The states behind its symbols are `top` and those above `bottom`. -/
theorem Goes.reduce {s : Setting} (stop : Position) (rest : List Token) (r : Rule) (phrase : List Token)
    (above : List Nat) {lhs : Symbol} {rhs : List Symbol} {prec : Option LR.Prec} {below : List Token}
    {states : List Nat} {top bottom q : Nat} {next : Token} {payload : Payload}
    (hform : Rule.form? r.index = some ⟨r, lhs, rhs, prec⟩) (hp : phrase.length = rhs.length)
    (ha : above.length + 1 = rhs.length) (hs : states.length = below.length) (hr : Settled top next r below)
    (hb : s.Builds ⟨phrase, below.head?.map (·.symbol)⟩ r payload)
    (hg : Gotos bottom lhs q) :
    ∃ t : Token, t.symbol = lhs ∧ t.payload = payload ∧
      s.Goes stop 1 ⟨top :: (above ++ bottom :: states), phrase.reverse ++ below, next :: rest⟩
        ⟨q :: bottom :: states, t :: below, next :: rest⟩ := by
  refine ⟨⟨lhs, "", Phrase.span ⟨phrase, below.head?.map (·.symbol)⟩ ⟨stop, stop⟩, payload⟩, rfl, rfl, ?_⟩
  refine of_step fun c hc => ?_
  obtain ⟨hstates, hstack, hinput⟩ := hc
  obtain ⟨hnext, hrest⟩ := List.cons.inj hinput
  dsimp only at hstates hstack
  have hne : phrase.reverse ≠ [] := by
    rw [ne_eq, List.reverse_eq_nil_iff]
    rintro rfl
    rw [List.length_nil] at hp
    omega
  have htop : c.state = top := by rw [Config.state, hstates, List.headD_cons]
  obtain ⟨stats, memo, hstep⟩ := step_reduce s stop hstack hne (by rw [htop, hnext]; exact hr)
  obtain ⟨memo', hbuild⟩ := hb memo
  have hlen : (rhs.map Symbol.index).length = rhs.length := List.length_map _
  have hstates : c.states.drop (rhs.map Symbol.index).length = bottom :: states := by
    rw [hstates, hlen, ← List.cons_append]
    exact List.drop_left' ha
  have hbelow : c.stack.drop (rhs.map Symbol.index).length = below := by
    rw [hstack, hlen]
    exact List.drop_left' (by rw [List.length_reverse, hp])
  have hreduce : (s.semantics stop).reduce r.index c.next c.stack memo =
      (.ok (⟨lhs, "", Phrase.span ⟨phrase, below.head?.map (·.symbol)⟩ ⟨stop, stop⟩, payload⟩ ::
        c.stack.drop (rhs.map Symbol.index).length), memo') := by
    rw [hbelow, hstack]
    exact reduce_eq hform hp hbuild ⟨stop, stop⟩
  have hact := Config.act_reduce (c := ({ c with stats, memo } : Config Token (List String)))
    (production_eq hform) hreduce (by rw [hstates, hbelow]; exact congrArg (· + 1) hs)
    (by rw [hstates]; exact hg)
  rw [hstates, hbelow] at hact
  exact ⟨_, hstep.trans hact, rfl, rfl, hinput⟩

/-! ## A whole run -/

/-- A run that comes to a scene where the one token on the stack is accepted gives that token. -/
theorem Goes.run_eq {s : Setting} {stop : Position} {goal : Goal} {n fuel q : Nat} {states : List Nat} {t next : Token}
    {input rest : List Token} (h : s.Goes stop n ⟨[goal.index], [], input⟩ ⟨q :: states, [t], next :: rest⟩)
    (ha : Rule.tables.lookup q next.symbol.index = .accept) (hn : n < fuel) (hne : input ≠ [])
    (names : List String) :
    (LR.run Rule.tables (s.semantics stop) fuel goal.index input names).result = .ok t := by
  obtain ⟨x, xs, rfl⟩ := List.exists_cons_of_ne_nil hne
  have hstart : Rule.tables.startState? goal.index = some goal.index := by cases goal <;> rfl
  rw [LR.run, hstart]
  dsimp only
  obtain ⟨k, hk, d, hlead, hstates, hstack, hinput⟩ :=
    h (Config.start (s.semantics stop) goal.index (x :: xs) names) ⟨rfl, rfl, rfl⟩
  dsimp only at hstates hstack hinput
  obtain ⟨hnext, -⟩ := List.cons.inj hinput
  have haccept : Rule.tables.lookup d.state ((s.semantics stop).symbol d.next) = .accept := by
    rw [Config.state, hstates, hnext]
    exact ha
  obtain ⟨j, rfl⟩ : ∃ j, fuel = k + (j + 1) := ⟨fuel - k - 1, by omega⟩
  rw [hlead.turns, LR.turns, Config.step_accept haccept hstack]

end Setting

end Formula
