import Formula.Proofs.Expr.Enclosed

/-!
# Two parsers in step

`Setting.Mirror` relates a parser to one that reads tokens related to its own: the states are the same, and the tokens
on the stack and the tokens ahead are related one by one, up to a tail that need not be. The relation is one that rules
keep to (`Setting.Keeps`), as translations are (`Translation.Sound.keeps`). Until the tail is shifted, every move of the
first parser is one of the second (`Setting.Mirror.go`, `Setting.Mirror.leads`), if the two tails begin alike and make
no difference to whether an interval is ahead. If the tails are the ends of the texts, both texts are read in step
(`Setting.Mirror.accept`).
-/

namespace Formula

open Interior (charted)
open LR (Action Config Leads Move Moves)
open Text (Position)

namespace Setting

variable {s : Setting} {stop stop' : Position} {V : Token → Token → Prop} {tail tail' : List Token}
  {c c' d : Config Token (List String)}

/-- A relation between tokens that rules keep to: what they make of related phrases is related. -/
structure Keeps (s : Setting) (V : Token → Token → Prop) : Prop where
  symbol : ∀ {t t' : Token}, V t t' → t'.symbol = t.symbol
  makes : ∀ {p p' : Phrase} {r : Rule} {payload : Payload}, List.Forall₂ V p.tokens p'.tokens →
    (p'.below = some .compose ↔ p.below = some .compose) → s.Makes p r payload →
      ∃ payload', s.Makes p' r payload' ∧ ∀ x span span', V ⟨x, "", span, payload⟩ ⟨x, "", span', payload'⟩

theorem Keeps.symbols_eq (hV : s.Keeps V) {ts ts' : List Token} (h : List.Forall₂ V ts ts') :
    ts'.map (·.symbol) = ts.map (·.symbol) :=
  (map_symbol_of_forall₂ (fun _ _ h => (hV.symbol h).symm) h).symm

/-- Tails that are read alike as long as they are ahead only. -/
structure Alike (tail tail' : List Token) : Prop where
  next : ∃ t ts t' ts', tail = t :: ts ∧ tail' = t' :: ts' ∧ t'.symbol = t.symbol ∧ t.symbol ≠ .bar
  interval : ∀ front, Bars.isIntervalAhead (front ++ tail'.map (·.symbol)) =
    Bars.isIntervalAhead (front ++ tail.map (·.symbol))

/-- Two parsers in the same states. The second one reads what is related to what the first one reads, in front of a
tail of its own. -/
structure Mirror (V : Token → Token → Prop) (tail tail' : List Token) (c d : Config Token (List String)) : Prop where
  states : d.states = c.states
  stack : List.Forall₂ V c.stack d.stack
  ahead : ∃ words words', List.Forall₂ V words words' ∧ c.ahead = words ++ tail ∧ d.ahead = words' ++ tail'

/-- At their starts. -/
theorem Mirror.start (ht : Alike tail tail') {front front' : List Token} (hfront : List.Forall₂ V front front')
    (goal : Goal) (names names' : List String) :
    Mirror V tail tail' (Config.start (s.semantics stop) goal.index (front ++ tail) names)
      (Config.start (s.semantics stop') goal.index (front' ++ tail') names') := by
  obtain ⟨t, ts, t', ts', rfl, rfl, -, -⟩ := ht.next
  refine ⟨?_, ?_, front, front', hfront, Config.start_ahead (by simp) _ _, Config.start_ahead (by simp) _ _⟩
  · rw [Config.start_states, Config.start_states]
  · rw [Config.start_stack, Config.start_stack]
    exact .nil

theorem Mirror.decision_eq (hV : s.Keeps V) (stop stop' : Position) (ht : Alike tail tail')
    (h : Mirror V tail tail' c d) :
    d.decision Rule.tables (s.semantics stop') = c.decision Rule.tables (s.semantics stop) := by
  have hstate : d.state = c.state := by rw [Config.state, h.states, Config.state]
  obtain ⟨words, words', htwins, hc, hd⟩ := h.ahead
  cases htwins with
  | nil =>
    -- no choice is open in front of the tails
    obtain ⟨t, ts, t', ts', rfl, rfl, hsymbol, hbar⟩ := ht.next
    obtain ⟨hcnext, -⟩ := List.cons.inj hc
    obtain ⟨hdnext, -⟩ := List.cons.inj hd
    have hnext : d.next.symbol = c.next.symbol := by rw [hcnext, hdnext, hsymbol]
    have hne : ∀ k, Rule.tables.lookup c.state c.next.symbol.index ≠ .ambiguous k := fun k hl =>
      hbar (hcnext ▸ (charted.ambiguous hl).1)
    rw [decision_of_lookup rfl hne]
    exact decision_of_lookup (by rw [hstate, hnext]) hne
  | cons hx htwins =>
    rw [List.cons_append] at hc hd
    obtain ⟨hcnext, hcrest⟩ := List.cons.inj hc
    obtain ⟨hdnext, hdrest⟩ := List.cons.inj hd
    refine decision_congr hstate ?_ (hV.symbols_eq h.stack) ?_
    · rw [hcnext, hdnext, hV.symbol hx]
    · rw [hcrest, hdrest, List.map_append, List.map_append, hV.symbols_eq htwins, ht.interval]

/-- A move of the first parser is one of the second. -/
theorem Mirror.go (stop' : Position) (hV : s.Keeps V) (ht : Alike tail tail')
    (h : Mirror V tail tail' c d) (hmove : Move Rule.grammar (s.semantics stop) c c')
    (hkeep : c.ahead = tail → ∀ n, c.decision Rule.tables (s.semantics stop) ≠ .shift n) :
    ∃ d', d.step Rule.tables (s.semantics stop') = .go d' ∧ Mirror V tail tail' c' d' := by
  have hdecision := h.decision_eq hV stop stop' ht
  obtain ⟨words, words', htwins, hcahead, hdahead⟩ := h.ahead
  cases hmove with
  | @shift n stats memo hdec _ hc =>
    cases htwins with
    | nil => exact absurd hdec (hkeep hcahead n)
    | @cons x x' words words' hx htwins =>
      rw [List.cons_append] at hcahead hdahead
      obtain ⟨hcnext, hcrest⟩ := List.cons.inj hcahead
      obtain ⟨hdnext, hdrest⟩ := List.cons.inj hdahead
      obtain ⟨t, ts, t', ts', rfl, rfl, -, -⟩ := ht.next
      obtain ⟨d', hstep, hstates, hstack, hahead⟩ := step_shift (hdecision.trans hdec) (by rw [hdrest]; simp)
      refine ⟨d', hstep, ?_, ?_, words, words', htwins, ?_, by rw [Config.ahead, hahead, hdrest]⟩
      · rw [hstates, h.states, hc, Config.shift_states]
      · rw [hstack, hdnext, hc, Config.shift_stack]
        exact .cons (hcnext ▸ hx) h.stack
      · rw [hc, ← hcrest]
        exact Config.shift_ahead (c := { c with stats, memo }) (by rw [hcrest]; simp) n
  | @reduce number n bottom p phrase below above states token stats memo memo' hdec hprod hstack hphrase hstates habove
      hlen hreduce htoken hgoto hc =>
    rw [hstack] at hreduce
    obtain ⟨f, hf, rfl, rfl, hsymbols, payload, hmakes, rfl⟩ := makes_of_reduce hprod hphrase hreduce
    have htwins' := h.stack
    rw [hstack] at htwins'
    obtain ⟨phrase', below', hdstack, hphrases, hbelows⟩ := forall₂_reverse_append htwins'
    have hbelow : below'.head?.map (·.symbol) = some .compose ↔ below.head?.map (·.symbol) = some .compose := by
      rw [← List.head?_map, ← List.head?_map, hV.symbols_eq hbelows]
    obtain ⟨payload', hmakes', htoken'⟩ :
        ∃ payload', s.Makes ⟨phrase', below'.head?.map (·.symbol)⟩ f.rule payload' ∧
          ∀ x span span', V ⟨x, "", span, payload⟩ ⟨x, "", span', payload'⟩ := hV.makes hphrases hbelow hmakes
    obtain ⟨d', ⟨_, _, span, _⟩, hstep, hdstates, hdstack', rfl, rfl, rfl, hdnext, hdrest⟩ := exists_step_reduce hf
      (hdecision.trans hdec) hdstack (by rw [hV.symbols_eq hphrases, hsymbols]) hmakes' (h.states.trans hstates)
      (by rw [habove, List.length_map]) (by rw [hlen, hbelows.length_eq]) hgoto
    refine ⟨d', hstep, ?_, ?_, words, words', htwins, ?_, by rw [Config.ahead, hdnext, hdrest]; exact hdahead⟩
    · rw [hdstates, hc]
    · rw [hdstack', hc]
      exact .cons (htoken' _ _ span) hbelows
    · rw [hc]
      exact hcahead

/-- As long as the tail is ahead, the second parser does what the first one does. -/
theorem Mirror.leads (stop' : Position) (hV : s.Keeps V) (ht : Alike tail tail') {n : Nat}
    {e : Config Token (List String)} (hmoves : Moves Rule.grammar (s.semantics stop) n c e)
    (hkeep : ∀ j < n, ∀ y, Leads Rule.tables (s.semantics stop) j c y → y.ahead = tail →
      ∀ n, y.decision Rule.tables (s.semantics stop) ≠ .shift n) (h : Mirror V tail tail' c d) :
    ∃ d', Leads Rule.tables (s.semantics stop') n d d' ∧ Mirror V tail tail' e d' := by
  induction hmoves generalizing d with
  | refl => exact ⟨d, .refl d, h⟩
  | @go n c c' e hstep hmove _ ih =>
    obtain ⟨d', hdstep, h'⟩ := h.go stop' hV ht hmove (hkeep 0 (Nat.succ_pos n) c (.refl c))
    obtain ⟨d'', hleads, hend⟩ := ih (fun j hj y hy => hkeep (j + 1) (Nat.succ_lt_succ hj) y (.go hstep hy)) h'
    exact ⟨d'', .go hdstep hleads, hend⟩

/-- At the tail, the second parser shifts what the first one shifts. -/
theorem Mirror.shift (stop' : Position) (hV : s.Keeps V) {t t' : Token} {ts ts' : List Token}
    (ht : Alike (t :: ts) (t' :: ts')) (hts' : ts' ≠ []) {n : Nat} (h : Mirror V (t :: ts) (t' :: ts') c d)
    (hc : c.ahead = t :: ts) (hshift : c.Shifts Rule.tables (s.semantics stop) n c') :
    ∃ d', d.step Rule.tables (s.semantics stop') = .go d' ∧ d'.states = c'.states ∧ d'.stack = t' :: d.stack ∧
      d'.ahead = ts' := by
  obtain ⟨words, words', htwins, hcahead, hdahead⟩ := h.ahead
  rw [hc] at hcahead
  obtain rfl : words = [] := List.self_eq_append_left.mp hcahead
  cases htwins
  obtain ⟨hnext, hrest⟩ := List.cons.inj hdahead
  obtain ⟨d', hstep, hstates, hstack, hahead⟩ := step_shift ((h.decision_eq hV stop stop' ht).trans hshift.decision)
    (by rw [hrest]; exact hts')
  exact ⟨d', hstep, by rw [hstates, h.states, hshift.states], by rw [hstack, hnext], hahead.trans hrest⟩

/-! ## Runs on the way to a tail -/

/-- A turn that accepts is the last one. -/
theorem step_ne_go (hd : d.decision Rule.tables (s.semantics stop) = .accept) (d' : Config Token (List String)) :
    d.step Rule.tables (s.semantics stop) ≠ .go d' := fun h => by
  obtain ⟨stats, hstep⟩ := step_eq_act s stop d
  rw [hstep, hd] at h
  rcases Config.act_eq_go h with ⟨_, haction, -⟩ | ⟨_, _, _, _, _, _, _, _, haction, -⟩ <;> cases haction

/-- What is left of a text ends with its end. -/
theorem exists_ahead_of_moves {words : List Token} {last : Token} (hlast : last.symbol = .finish) {n : Nat}
    (hmoves : Moves Rule.grammar (s.semantics stop) n c d) (hc : c.ahead = words ++ [last]) :
    ∃ words', words' <:+ words ∧ d.ahead = words' ++ [last] := by
  refine hmoves.preserve (P := fun c => ∃ words', words' <:+ words ∧ c.ahead = words' ++ [last])
    (fun c c' ⟨words', hw, hc⟩ hm => ?_) ⟨words, List.suffix_rfl, hc⟩
  cases words' with
  | nil =>
    have hnext : c.next.symbol = .finish := (List.cons.inj hc).1 ▸ hlast
    cases hm with
    | shift hd _ _ => exact absurd hd (decision_ne_shift hnext _)
    | reduce _ _ _ _ _ _ _ _ _ _ hc' => exact ⟨[], hw, by rw [hc']; exact hc⟩
  | cons w words' =>
    rw [List.cons_append] at hc
    obtain ⟨-, hrest⟩ := List.cons.inj hc
    rcases hm.shifts_or (by rw [hrest]; simp) with ⟨_, hshift⟩ | ⟨-, hahead⟩
    · exact ⟨words', (List.suffix_cons w words').trans hw, hshift.ahead.trans hrest⟩
    · exact ⟨w :: words', hw, hahead.trans hc⟩

/-- A parser on its way to accept is about to shift the first token of a tail, for the first time. -/
structure Arrives (s : Setting) (stop : Position) (start : Config Token (List String)) (fuel : Nat) (tail : List Token)
    (token : Token) (x y : Config Token (List String)) (q : Nat) : Prop where
  moves : ∃ j < fuel, Moves Rule.grammar (s.semantics stop) j start x ∧ ∀ i < j, ∀ z,
    Leads Rule.tables (s.semantics stop) i start z → z.ahead = tail →
      ∀ m, z.decision Rule.tables (s.semantics stop) ≠ .shift m
  ahead : x.ahead = tail
  step : x.step Rule.tables (s.semantics stop) = .go y
  shifts : x.Shifts Rule.tables (s.semantics stop) q y
  accepts : ∃ k d, Moves Rule.grammar (s.semantics stop) k y d ∧
    d.decision Rule.tables (s.semantics stop) = .accept ∧ d.stack = [token] ∧ d.next.symbol = .finish

/-- A run that succeeds comes to shift the first token of every tail. -/
theorem exists_arrives {goal : Goal} {input front back : List Token} {t : Token} {position : Position}
    (hinput : input = front ++ t :: (back ++ [.finish position]))
    (hwords : ∀ u ∈ front ++ t :: back, u.symbol ≠ .finish)
    {names : List String} {token : Token} (hrun : (s.run goal input names).result = .ok token) :
    ∃ x y q, s.Arrives (stopOf input) (Config.start (s.semantics (stopOf input)) goal.index input names)
      (8 * (input.length + 2)) (t :: (back ++ [.finish position])) token x y q := by
  obtain ⟨n, d, hn, hmoves, hdstack, hdecision, hdnext, -⟩ := exists_moves hrun
  have hstart : (Config.start (s.semantics (stopOf input)) goal.index input names).ahead =
      front ++ t :: back ++ [.finish position] := by
    rw [Config.start_ahead (by rw [hinput]; simp), hinput]
    simp
  -- at the end nothing is ahead but the end of the text
  obtain ⟨left, hleft, hdahead⟩ := exists_ahead_of_moves rfl hmoves hstart
  obtain rfl : left = [] := by
    cases left with
    | nil => rfl
    | cons w left =>
      rw [List.cons_append] at hdahead
      exact absurd ((List.cons.inj hdahead).1 ▸ hdnext) (hwords w (hleft.subset List.mem_cons_self))
  have htail : t :: (back ++ [.finish position]) <:+
      (Config.start (s.semantics (stopOf input)) goal.index input names).ahead := by
    rw [hstart, List.append_assoc, List.cons_append]
    exact List.suffix_append _ _
  obtain ⟨j, hj, k, x, y, q, hx, hahead, hstep, hshift, hk, hbefore⟩ := hmoves.exists_shift (by simp) htail
    (by rw [hdahead]; simp)
  exact ⟨x, y, q, ⟨j, hj.trans hn, hx, hbefore⟩, hahead, hstep, hshift, k, d, hk, hdecision, hdstack, hdnext⟩

/-! ## Runs in step -/

/-- If the first parser accepts at the end of its text, the second one does at the end of its own. -/
theorem Mirror.accept (stop' : Position) (hV : s.Keeps V) {position position' : Position} {n : Nat} {token : Token}
    (hmoves : Moves Rule.grammar (s.semantics stop) n c d)
    (hd : d.decision Rule.tables (s.semantics stop) = .accept) (hstack : d.stack = [token])
    (h : Mirror V [.finish position] [.finish position'] c c') :
    ∃ d' token', Leads Rule.tables (s.semantics stop') n c' d' ∧
      d'.decision Rule.tables (s.semantics stop') = .accept ∧ d'.stack = [token'] ∧ V token token' := by
  have ht : Alike [.finish position] [.finish position'] :=
    ⟨⟨_, _, _, _, rfl, rfl, rfl, (by decide : Symbol.finish ≠ .bar)⟩, fun _ => rfl⟩
  obtain ⟨d', hleads, hend⟩ := h.leads stop' hV ht hmoves fun j _ y _ hy =>
    decision_ne_shift (congrArg Token.symbol (List.cons.inj hy).1)
  have htwins := hend.stack
  rw [hstack] at htwins
  obtain ⟨token', _, htwin, hnil, hstack'⟩ := List.forall₂_cons_left_iff.mp htwins
  cases hnil
  exact ⟨d', token', hleads, (hend.decision_eq hV stop stop' ht).trans hd, hstack', htwin⟩

/-- If one parser reads its text, another one reads its own, as soon as the two come past different tails in step. -/
theorem Mirror.exists_run (hV : s.Keeps V) {goal : Goal} {front front' back back' : List Token} {t t' : Token}
    {position position' : Position} {names names' : List String} {input input' : List Token}
    (hinput : input = front ++ t :: (back ++ [.finish position]))
    (hwords : ∀ u ∈ front ++ t :: back, u.symbol ≠ .finish)
    (hinput' : input' = front' ++ t' :: (back' ++ [.finish position'])) (hfront : List.Forall₂ V front front')
    (ht : Alike (t :: (back ++ [.finish position])) (t' :: (back' ++ [.finish position']))) {token : Token}
    (hrun : (s.run goal input names).result = .ok token)
    (hpast : ∀ x x' y q,
      s.Arrives (stopOf input) (Config.start (s.semantics (stopOf input)) goal.index input names)
        (8 * (input.length + 2)) (t :: (back ++ [.finish position])) token x y q →
      Mirror V (t :: (back ++ [.finish position])) (t' :: (back' ++ [.finish position'])) x x' →
      ∃ n n' z z', Leads Rule.tables (s.semantics (stopOf input)) n x z ∧
        Leads Rule.tables (s.semantics (stopOf input')) n' x' z' ∧
        Mirror V [.finish position] [.finish position'] z z') :
    ∃ token', (s.run goal input' names').result = .ok token' ∧ V token token' := by
  obtain ⟨x, y, q, harrives⟩ := exists_arrives hinput hwords hrun
  obtain ⟨j, -, hx, hbefore⟩ := harrives.moves
  obtain ⟨k, d, hk, hdecision, hdstack, -⟩ := harrives.accepts
  have hstart : Mirror V (t :: (back ++ [.finish position])) (t' :: (back' ++ [.finish position']))
      (Config.start (s.semantics (stopOf input)) goal.index input names)
      (Config.start (s.semantics (stopOf input')) goal.index input' names') := by
    rw [hinput, hinput']
    exact .start ht hfront goal names names'
  obtain ⟨x', hx', hmirror⟩ := hstart.leads (stopOf input') hV ht hx hbefore
  obtain ⟨n, n', z, z', hz, hz', hmirror'⟩ := hpast x x' y q harrives hmirror
  -- the first parser comes past the tail on its way
  have hall := hx.leads.trans ((Leads.one harrives.step).trans hk.leads)
  obtain ⟨hmoves, -⟩ := moves_of_leads hall
  obtain ⟨-, hmoves⟩ := hmoves.split (hx.leads.trans hz) ((hx.leads.trans hz).le_of_stop hall (step_ne_go hdecision))
  obtain ⟨d', token', hd', hdecision', hstack', htoken⟩ := hmirror'.accept (stopOf input') hV hmoves hdecision hdstack
  have hall' := hx'.trans (hz'.trans hd')
  have hend : input' = front' ++ t' :: back' ++ [.finish position'] := by
    rw [hinput']
    simp
  rw [hend] at hall' hdecision' ⊢
  exact ⟨token', run_of_leads rfl hall' hdecision' hstack', htoken⟩

end Setting

/-- Rules keep to translations. -/
theorem Translation.Sound.keeps {s : Setting} {m : Translation} (hm : m.Sound s)
    (hempty : m.Fine "" ∧ m.rename "" = "") : s.Keeps m.Twin where
  symbol h := h.symbol
  makes hp hbelow h := ⟨_, h.translate hm ⟨hp, hbelow⟩, fun _ _ _ => ⟨rfl, hempty.2.symm, rfl, hempty.1⟩⟩

end Formula
