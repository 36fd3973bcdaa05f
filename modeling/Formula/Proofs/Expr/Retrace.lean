import Formula.Proofs.Expr.Turns

/-!
# One text under two settings

A second parser reads the tokens of a first one with another setting. `Setting.Retraces` is what is known of the two
settings: what the rules make with the first, they make with the second as well, up to a relation between tokens, or
they refuse it there with one of certain errors. Then the second parser goes where the first one goes, or is refused on
the way (`Retraces.go`, `Retraces.leads`), and so is the whole run (`Retraces.run`). What was met before does not
matter.
-/

namespace Formula

open LR (Config Leads Move Moves)
open Text (Position)

namespace Setting

variable {V : Token → Token → Prop} {B : Error → Prop} {s s' : Setting} {stop : Position}
  {c c' d e : Config Token (List String)}

/-- Of related phrases the rules make with the second setting what they make with the first, or they are refused there
with one of the errors. -/
structure Retraces (V : Token → Token → Prop) (B : Error → Prop) (s s' : Setting) : Prop where
  symbol : ∀ {t t' : Token}, V t t' → t'.symbol = t.symbol
  refl : ∀ t, V t t
  makes : ∀ {phrase phrase' : List Token} {below : Option Symbol} {r : Rule} {payload : Payload},
    List.Forall₂ V phrase phrase' → s.Makes ⟨phrase, below⟩ r payload →
      (∃ payload', s'.Makes ⟨phrase', below⟩ r payload' ∧
        ∀ x span span', V ⟨x, "", span, payload⟩ ⟨x, "", span', payload'⟩) ∨
      ∃ error, B error ∧ ∀ names, s'.build ⟨phrase', below⟩ r names = (.error error, names)

/-- Two parsers in the same states in front of the same tokens, with related tokens on their stacks. -/
structure Beside (V : Token → Token → Prop) (c d : Config Token (List String)) : Prop where
  states : d.states = c.states
  stack : List.Forall₂ V c.stack d.stack
  next : d.next = c.next
  rest : d.rest = c.rest

/-- At their starts. -/
theorem Beside.start (V : Token → Token → Prop) (s s' : Setting) (stop : Position) (bottom : Nat) (input : List Token)
    (names names' : List String) :
    Beside V (Config.start (s.semantics stop) bottom input names)
      (Config.start (s'.semantics stop) bottom input names') := by
  unfold Config.start Config.advance
  cases input with
  | nil => exact ⟨rfl, .nil, by dsimp only [semantics], rfl⟩
  | cons t ts => exact ⟨rfl, .nil, rfl, rfl⟩

/-- The turn ends the run with one of the errors. -/
def Refused (B : Error → Prop) (s : Setting) (stop : Position) (c : Config Token (List String)) : Prop :=
  ∃ error stats names, B error ∧ c.step Rule.tables (s.semantics stop) = .stop ⟨.error error, stats, names⟩

namespace Retraces

variable (h : s.Retraces V B s')

include h

theorem symbols_eq {ts ts' : List Token} (hts : List.Forall₂ V ts ts') : ts'.map (·.symbol) = ts.map (·.symbol) :=
  (map_symbol_of_forall₂ (fun _ _ ht => (h.symbol ht).symm) hts).symm

/-- What is decided depends on symbols only, and not on the setting. -/
theorem decision_eq (hcd : Beside V c d) (stop : Position) :
    d.decision Rule.tables (s'.semantics stop) = c.decision Rule.tables (s.semantics stop) := by
  have hstate : d.state = c.state := by rw [Config.state, hcd.states, Config.state]
  refine Config.decision_congr hstate (congrArg (·.symbol.index) hcd.next) fun number => ⟨_, _, c.memo, rfl, ?_⟩
  show (Except.ok (Bars.choose Rule.tables number c.next.symbol (c.stack.map (·.symbol)) (c.rest.map (·.symbol))),
    c.memo) = _
  rw [← hcd.next, ← hcd.rest, ← h.symbols_eq hcd.stack]

/-- A move of the first parser is one of the second, or the second one is refused. -/
theorem go (hcd : Beside V c d) (hmove : Move Rule.grammar (s.semantics stop) c c') :
    (∃ d', d.step Rule.tables (s'.semantics stop) = .go d' ∧ Beside V c' d') ∨ s'.Refused B stop d := by
  have hdecision := h.decision_eq hcd stop
  cases hmove with
  | @shift n stats memo hdec _ hc =>
    obtain ⟨stats', hstep⟩ := step_eq_act s' stop d
    rw [hdecision.trans hdec] at hstep
    refine .inl ⟨_, hstep, ?_⟩
    rw [hc]
    refine ⟨?_, ?_, ?_, ?_⟩
    · rw [Config.shift_states, Config.shift_states]
      exact congrArg (n :: ·) hcd.states
    · rw [Config.shift_stack, Config.shift_stack]
      exact .cons (hcd.next ▸ h.refl _) hcd.stack
    · unfold Config.shift Config.advance
      rw [hcd.rest]
      cases c.rest <;> rfl
    · unfold Config.shift Config.advance
      rw [hcd.rest]
      cases c.rest <;> rfl
  | @reduce number n bottom p phrase below above states token stats memo memo' hdec hprod hstack hphrase hstates habove
      hlen hreduce htoken hgoto hc =>
    rw [hstack] at hreduce
    obtain ⟨f, hf, rfl, rfl, hsymbols, payload, hmakes, rfl⟩ := makes_of_reduce hprod hphrase hreduce
    have hrelated := hcd.stack
    rw [hstack] at hrelated
    obtain ⟨phrase', below', hdstack, hphrases, hbelows⟩ := forall₂_reverse_append hrelated
    have hbelow : below'.head?.map (·.symbol) = below.head?.map (·.symbol) := by
      rw [← List.head?_map, ← List.head?_map, h.symbols_eq hbelows]
    have hsymbols' : phrase'.map (·.symbol) = f.rhs := by rw [h.symbols_eq hphrases, hsymbols]
    rcases h.makes hphrases hmakes with ⟨payload', hmakes', htoken'⟩ | ⟨error, hB, hbuild⟩
    · obtain ⟨d', ⟨_, _, span, _⟩, hstep, hdstates, hdstack', rfl, rfl, rfl, hdnext, hdrest⟩ :=
        exists_step_reduce hf (hdecision.trans hdec) hdstack hsymbols' (hbelow ▸ hmakes') (hcd.states.trans hstates)
          (by rw [habove, List.length_map]) (by rw [hlen, hbelows.length_eq]) hgoto
      refine .inl ⟨d', hstep, ?_⟩
      rw [hc]
      refine ⟨hdstates, ?_, hdnext.trans hcd.next, hdrest.trans hcd.rest⟩
      rw [hdstack']
      exact .cons (htoken' _ _ span) hbelows
    · obtain ⟨stats', hstep⟩ :=
        step_refuse hf (hdecision.trans hdec) hdstack hsymbols' (hbelow ▸ hbuild d.memo)
      exact .inr ⟨error, stats', _, hB, hstep⟩

/-- Where the first parser goes, the second one goes too, or it is refused on the way. -/
theorem leads {n : Nat} (hmoves : Moves Rule.grammar (s.semantics stop) n c e) (hcd : Beside V c d) :
    (∃ d', Leads Rule.tables (s'.semantics stop) n d d' ∧ Beside V e d') ∨
      ∃ k < n, ∃ d', Leads Rule.tables (s'.semantics stop) k d d' ∧ s'.Refused B stop d' := by
  induction hmoves generalizing d with
  | refl => exact .inl ⟨d, .refl d, hcd⟩
  | @go n c c' e _ hmove _ ih =>
    rcases h.go hcd hmove with ⟨d', hstep, hbeside⟩ | hrefused
    · rcases ih hbeside with ⟨d'', hleads, hend⟩ | ⟨k, hk, d'', hleads, hrefused⟩
      · exact .inl ⟨d'', .go hstep hleads, hend⟩
      · exact .inr ⟨k + 1, Nat.succ_lt_succ hk, d'', .go hstep hleads, hrefused⟩
    · exact .inr ⟨0, Nat.succ_pos n, d, .refl d, hrefused⟩

/-- If the first run succeeds, so does the second one, with a related token, or it is refused with one of the errors. -/
theorem run {goal : Goal} {input : List Token} {names : List String} {token : Token}
    (hrun : (s.run goal input names).result = .ok token) (names' : List String) :
    (∃ token', (s'.run goal input names').result = .ok token' ∧ V token token') ∨
      ∃ error, B error ∧ (s'.run goal input names').result = .error error := by
  obtain ⟨n, e, hn, hmoves, hstack, hdecision, -, -⟩ := exists_moves hrun
  rcases h.leads hmoves (.start V s s' _ _ input names names') with
    ⟨d, hleads, hend⟩ | ⟨k, hk, d, hleads, error, stats, memo, hB, hstep⟩
  · have hrelated := hend.stack
    rw [hstack] at hrelated
    obtain ⟨token', _, htoken, hnil, hdstack⟩ := List.forall₂_cons_left_iff.mp hrelated
    cases hnil
    obtain ⟨stats, hstep⟩ := step_accept ((h.decision_eq hend _).trans hdecision) hdstack
    exact .inl ⟨token', by rw [run_eq_of_leads hleads hstep hn], htoken⟩
  · exact .inr ⟨error, hB, by rw [run_eq_of_leads hleads hstep (hk.trans hn)]⟩

end Retraces

end Setting

end Formula
