import Formula.Proofs.Expr.Turns
import Formula.Proofs.LR.Sources
import Formula.Proofs.Token.Spans

/-!
# Spans of phrases

A reduction merges the spans of the first and of the last token of its phrase only. No rule has an empty right-hand
side, and the input is in order, so that the merged span runs from the start of the first input token of the phrase to
the end of the last (`buildsFrom_spans`). By the sources that go with the stack this holds of every token on it before
every turn of a run, and of the token that the run returns (`spans_tight`).
-/

namespace Formula

open Text (Position Span)

/-- The token runs from the start of the first to the end of the last of its sources. -/
structure Token.Covers (token : Token) (sources : List Token) : Prop where
  start : sources.head?.map (·.span.start) = some token.span.start
  stop : sources.getLast?.map (·.span.stop) = some token.span.stop

namespace Token.Covers

theorem self (t : Token) : t.Covers [t] := ⟨rfl, rfl⟩

theorem exists_first {t : Token} {sources : List Token} (h : t.Covers sources) :
    ∃ first, sources.head? = some first ∧ first.span.start = t.span.start :=
  Option.map_eq_some_iff.mp h.start

theorem exists_last {t : Token} {sources : List Token} (h : t.Covers sources) :
    ∃ last, sources.getLast? = some last ∧ last.span.stop = t.span.stop :=
  Option.map_eq_some_iff.mp h.stop

end Token.Covers

namespace InOrder

variable {tokens : List Token} {a b : Token}

theorem start_le (h : InOrder tokens) (ha : tokens.head? = some a) (hb : b ∈ tokens) :
    a.span.start.compare b.span.start ≠ .gt := by
  obtain ⟨rest, rfl⟩ := List.head?_eq_some_iff.mp ha
  rcases List.mem_cons.mp hb with rfl | hb
  · exact Position.compare_self_ne_gt _
  · exact List.rel_of_pairwise_cons h.starts hb

theorem le_stop (h : InOrder tokens) (ha : a ∈ tokens) (hb : tokens.getLast? = some b) :
    a.span.stop.compare b.span.stop ≠ .gt := by
  obtain ⟨front, rfl⟩ := List.getLast?_eq_some_iff.mp hb
  rcases List.mem_append.mp ha with ha | ha
  · exact (List.pairwise_append.mp h.stops).2.2 a ha b List.mem_cons_self
  · obtain rfl := List.mem_singleton.mp ha
    exact Position.compare_self_ne_gt _

end InOrder

/-- Of two spans in order, the merged one has the start of the first and the end of the second. -/
theorem merge_eq {s t : Span} (hstart : s.start.compare t.start ≠ .gt) (hstop : s.stop.compare t.stop ≠ .gt) :
    s.merge t = ⟨s.start, t.stop⟩ := by
  rw [Span.merge, Position.earlier, Position.later, if_neg hstart, if_neg hstop]

theorem exists_head_of_forall₂ {α β : Type} {R : α → β → Prop} {as : List α} {bs : List β} (h : List.Forall₂ R as bs)
    {a : α} (ha : as.head? = some a) : ∃ b, bs.head? = some b ∧ R a b := by
  cases h with
  | nil => cases ha
  | cons hab _ =>
    cases ha
    exact ⟨_, rfl, hab⟩

theorem exists_last_of_forall₂ {α β : Type} {R : α → β → Prop} {as : List α} {bs : List β} (h : List.Forall₂ R as bs)
    {a : α} (ha : as.getLast? = some a) : ∃ b, bs.getLast? = some b ∧ R a b := by
  rw [List.getLast?_eq_head?_reverse] at ha ⊢
  exact exists_head_of_forall₂ (List.forall₂_reverse_iff.mpr h) ha

/-- The merged span of the first and the last token of a phrase covers what the whole phrase was built from. -/
theorem covers_merge {phrase : List Token} {sources : List (List Token)} (h : List.Forall₂ Token.Covers phrase sources)
    (horder : InOrder sources.flatten) {first last : Token} (hfirst : phrase.head? = some first)
    (hlast : phrase.getLast? = some last) {token : Token} (hspan : token.span = first.span.merge last.span) :
    token.Covers sources.flatten := by
  obtain ⟨piece, hpiece, hcovers⟩ := exists_head_of_forall₂ h hfirst
  obtain ⟨final, hfinal, hcovers'⟩ := exists_last_of_forall₂ h hlast
  obtain ⟨a, ha, hstart⟩ := hcovers.exists_first
  obtain ⟨b, hb, hstop⟩ := hcovers.exists_last
  obtain ⟨a', ha', hstart'⟩ := hcovers'.exists_first
  obtain ⟨b', hb', hstop'⟩ := hcovers'.exists_last
  have hmem : ∀ t, t ∈ piece → t ∈ sources.flatten := fun t ht =>
    List.mem_flatten.mpr ⟨piece, List.mem_of_head? hpiece, ht⟩
  have hmem' : ∀ t, t ∈ final → t ∈ sources.flatten := fun t ht =>
    List.mem_flatten.mpr ⟨final, List.mem_of_getLast? hfinal, ht⟩
  have hhead : sources.flatten.head? = some a := by
    obtain ⟨pieces, rfl⟩ := List.head?_eq_some_iff.mp hpiece
    rw [List.flatten_cons, List.head?_append, ha]
    rfl
  have hend : sources.flatten.getLast? = some b' := by
    obtain ⟨pieces, rfl⟩ := List.getLast?_eq_some_iff.mp hfinal
    rw [List.flatten_append, List.flatten_singleton, List.getLast?_append, hb']
    rfl
  have hstarts := horder.start_le hhead (hmem' a' (List.mem_of_head? ha'))
  have hstops := horder.le_stop (hmem b (List.mem_of_getLast? hb)) hend
  rw [hstart, hstart'] at hstarts
  rw [hstop, hstop'] at hstops
  rw [merge_eq hstarts hstops] at hspan
  constructor
  · rw [hhead, hspan, Option.map_some, hstart]
  · rw [hend, hspan, Option.map_some, hstop']

namespace Setting

variable {s : Setting} {stop : Position}

theorem buildsFrom_spans {tokens : List Token} (h : InOrder tokens) :
    (s.semantics stop).BuildsFrom Rule.grammar Token.Covers tokens := by
  intro number p next token phrase below memo memo' sources hp hphrase hcovers hsources hreduce
  obtain ⟨f, hf, -, -, hsymbols, payload, -, rfl⟩ := build_of_reduce hp hphrase hreduce
  have hrhs : ∀ f ∈ Rule.table, f.rhs ≠ [] := by decide
  have hne : phrase ≠ [] := by
    rintro rfl
    exact hrhs f hf hsymbols.symm
  have hfirst := List.head?_eq_some_head hne
  have hlast := List.getLast?_eq_some_getLast hne
  refine covers_merge hcovers (h.sublist hsources.sublist) hfirst hlast ?_
  dsimp only [Phrase.span]
  rw [hfirst, hlast]

/-- Tokens that are scanned are in order; and on tokens in order every run builds tight phrases. Before every turn the
tokens on the stack cover their sources, which are, from the bottom to the top, the tokens that were shifted so far, the
first ones of the input. The token that a run returns covers all that was shifted. -/
theorem spans_tight (s : Setting) (goal : Goal) :
    (∀ text, InOrder (tokenize text).tokens) ∧ ∀ (tokens : List Token) (names : List String), InOrder tokens →
      let t := Rule.tables
      let semantics := s.semantics (stopOf tokens)
      let turns := LR.historyOf t semantics (8 * (tokens.length + 2)) goal.index tokens names
      (∀ n c, turns[n]? = some c →
        LR.shiftedIn t semantics (turns.take n) <+: tokens ∧
          (LR.sourcesOf t semantics (turns.take n)).reverse.flatten = LR.shiftedIn t semantics (turns.take n) ∧
          List.Forall₂ Token.Covers c.stack (LR.sourcesOf t semantics (turns.take n))) ∧
        ∀ token, (s.run goal tokens names).result = .ok token → token.Covers (LR.shiftedIn t semantics turns) := by
  refine ⟨inOrder_tokenize, fun tokens names horder => ?_⟩
  have hgoal : goal.index < Rule.grammar.goals.length := by cases goal <;> decide
  obtain ⟨hturns, hrun⟩ := LR.run_traced Rule.augmented.checked (s.lawful (stopOf tokens))
    (fun t _ => t.symbol.index_lt) Rule.finish_not_mem (fun t _ => Token.Covers.self t) (buildsFrom_spans horder) hgoal
    (8 * (tokens.length + 2)) names
  refine ⟨fun n c hc => ?_, hrun⟩
  obtain ⟨hbegins, htraced⟩ := hturns n c hc
  exact ⟨hbegins, htraced.read_eq, htraced.built⟩

/-- A sum over two lines, whose token runs from the first word to the end of the last. -/
theorem spans_tight_sum :
    let s : Setting := {}
    let tokens := (tokenize " ab +\n c ").tokens
    InOrder tokens ∧ ∃ token, (s.run .equation tokens []).result = .ok token ∧ token.span = ⟨⟨1, 2⟩, ⟨2, 3⟩⟩ ∧
      token.Covers (LR.shiftedIn Rule.tables (s.semantics (stopOf tokens))
        (LR.historyOf Rule.tables (s.semantics (stopOf tokens)) (8 * (tokens.length + 2)) Goal.equation.index tokens
          [])) := by
  intro s tokens
  obtain ⟨horder, htight⟩ := spans_tight s .equation
  have hspan : (s.run .equation tokens []).result.toOption.map (·.span) = some ⟨⟨1, 2⟩, ⟨2, 3⟩⟩ := by decide +kernel
  refine ⟨horder _, ?_⟩
  cases hrun : (s.run .equation tokens []).result with
  | error e =>
    rw [hrun] at hspan
    cases hspan
  | ok token =>
    rw [hrun] at hspan
    exact ⟨token, rfl, Option.some.inj hspan, (htight tokens [] (horder _)).2 token hrun⟩

end Setting

end Formula
