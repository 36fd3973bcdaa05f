import Mathlib.Data.List.Forall2
import Formula.Proofs.LR.Safety

/-!
# What the tokens on the stack were built from

Beside a run goes a second stack, with the row of input tokens that each token on the stack was built from: a token that
is shifted comes from itself, and the token of a reduction from what those of its phrase come from (`sourcesOf`). One
after the other, from the bottom of the stack to its top, the rows are what was shifted so far, so that nothing is left
out and nothing is out of order.

A relation between tokens and rows that holds for a token and itself, and that every reduction hands on, holds all along
the stack before every turn of a run, and for the token that a run returns (`run_traced`).
-/

namespace Formula.LR

variable {τ σ ε : Type}

section

variable (t : Tables) (s : Semantics τ σ ε)

/-- The sources of the tokens on the stack after a turn, given those before it. -/
def Config.sourcesAfter (c : Config τ σ) (sources : List (List τ)) : List (List τ) :=
  match c.decision t s with
  | .shift _ => [c.next] :: sources
  | .reduce number =>
    match t.grammar.productions[number]? with
    | some p => (sources.take p.rhs.length).reverse.flatten :: sources.drop p.rhs.length
    | none => sources
  | _ => sources

/-- The sources of the tokens on the stack after the turns of a run, for the top of the stack in front. -/
def sourcesOf (turns : List (Config τ σ)) : List (List τ) :=
  turns.foldl (fun sources c => c.sourcesAfter t s sources) []

end

variable {g : Grammar} {s : Semantics τ σ ε} {built : τ → List τ → Prop}

/-- Each token on the stack is built from its sources, and all of these are the tokens that were read. -/
structure Traced (built : τ → List τ → Prop) (read : List τ) (stack : List τ) (sources : List (List τ)) : Prop where
  built : List.Forall₂ built stack sources
  read_eq : sources.reverse.flatten = read

/-- A token that is alone on the stack is built from all that was read. -/
theorem Traced.singleton {read : List τ} {token : τ} {sources : List (List τ)}
    (h : Traced built read [token] sources) : built token read := by
  obtain ⟨hbuilt, rfl⟩ := h
  cases hbuilt with
  | cons hbuilt hrest =>
    cases hrest
    simpa using hbuilt

/-- A relation between tokens and their sources that reductions hand on, for sources that stand next to each other in
what was read. -/
def Semantics.BuildsFrom (s : Semantics τ σ ε) (g : Grammar) (built : τ → List τ → Prop) (read : List τ) : Prop :=
  ∀ {number : Nat} {p : Production} {next token : τ} {phrase below : List τ} {memo memo' : σ} {sources : List (List τ)},
    g.productions[number]? = some p → phrase.map s.symbol = p.rhs → List.Forall₂ built phrase sources →
    sources.flatten <:+: read →
    s.reduce number next (phrase.reverse ++ below) memo = (.ok (token :: below), memo') → built token sources.flatten

/-- What a move preserves. -/
theorem Move.traced {c c' : Config τ σ} (hm : Move g s c c') {read : List τ} {sources : List (List τ)}
    (hself : ∀ a, g.IsTerminal (s.symbol a) → built a [a]) (hreduce : s.BuildsFrom g built read)
    (h : Traced built read c.stack sources) :
    Traced built (read ++ (c.shifted? (Tables.build g) s).toList) c'.stack
      (c.sourcesAfter (Tables.build g) s sources) := by
  rw [Config.shifted?, Config.sourcesAfter]
  cases hm with
  | @shift n stats memo hd ht hc =>
    rw [hd, hc, Config.shift_stack]
    refine ⟨.cons (hself _ ht) h.built, ?_⟩
    simp [h.read_eq]
  | @reduce number n bottom p phrase below above states token stats memo memo' hd hp hstack hphrase _ _ _ hred _ _ hc =>
    have hp' : (Tables.build g).grammar.productions[number]? = some p := hp
    rw [hd, hc]
    dsimp only
    rw [hp', Option.toList_none, List.append_nil]
    have hlength : phrase.reverse.length = p.rhs.length := by
      rw [List.length_reverse, ← hphrase, List.length_map]
    have htake := List.forall₂_take p.rhs.length h.built
    have hdrop := List.forall₂_drop p.rhs.length h.built
    rw [hstack, List.take_left' hlength] at htake
    rw [hstack, List.drop_left' hlength] at hdrop
    have hphrase' : List.Forall₂ built phrase (sources.take p.rhs.length).reverse := by
      rw [← List.forall₂_reverse_iff, List.reverse_reverse]
      exact htake
    have hsplit : sources.reverse = (sources.drop p.rhs.length).reverse ++ (sources.take p.rhs.length).reverse := by
      rw [← List.reverse_append, List.take_append_drop]
    have hread : (sources.drop p.rhs.length).reverse.flatten ++ (sources.take p.rhs.length).reverse.flatten = read := by
      rw [← List.flatten_append, ← hsplit, h.read_eq]
    have hinfix : (sources.take p.rhs.length).reverse.flatten <:+: read := ⟨_, [], by rw [List.append_nil, hread]⟩
    refine ⟨.cons (hreduce hp hphrase hphrase' hinfix (hstack ▸ hred)) hdrop, ?_⟩
    rw [List.reverse_cons, List.flatten_append, List.flatten_singleton, hread]

/-! ## Runs -/

theorem Semantics.BuildsFrom.infix {read part : List τ} (h : s.BuildsFrom g built read) (hpart : part <:+: read) :
    s.BuildsFrom g built part :=
  fun hp hphrase hbuilt hsources => h hp hphrase hbuilt (hsources.trans hpart)

/-- No more is read than the input, which is what stands in its first places. -/
theorem Reads.isPrefix {input : List τ} {bottom : Nat} {numbers : List Nat} {read : List τ} {c : Config τ σ}
    (hc : g.Checked) (hend : ∀ p ∈ g.productions, s.symbol s.endToken ∉ p.rhs)
    (h : Reads g s input bottom numbers read c) : read <+: input := by
  have hle := h.length_le hc hend
  refine List.prefix_iff_eq_take.mpr (List.ext_getElem ?_ fun i hi _ => ?_)
  · rw [List.length_take, Nat.min_eq_left hle]
  · have hread : read[i]? = some (s.stream input i) := by
      rw [h.read_eq, List.getElem?_map, List.getElem?_range hi]
      rfl
    rw [List.getElem?_eq_getElem hi, Semantics.stream, List.getElem?_eq_getElem (Nat.lt_of_lt_of_le hi hle)] at hread
    rw [List.getElem_take]
    exact Option.some.inj hread

/-- An entry of the history was come to by the turns in front of it. -/
theorem leads_of_getElem?_history {t : Tables} {fuel n : Nat} {c d : Config τ σ}
    (h : (history t s fuel c)[n]? = some d) : Leads t s n c d ∧ (history t s fuel c).take n = history t s n c := by
  induction fuel generalizing n c with
  | zero => cases h
  | succ fuel ih =>
    rw [history] at h ⊢
    cases n with
    | zero =>
      cases h
      exact ⟨.refl _, rfl⟩
    | succ n =>
      rw [List.getElem?_cons_succ] at h
      rw [List.take_succ_cons, history]
      cases hc : c.step t s with
      | stop o =>
        rw [hc] at h
        cases h
      | go c' =>
        rw [hc] at h
        obtain ⟨hl, htake⟩ := ih h
        exact ⟨.go hc hl, congrArg (c :: ·) htake⟩

section

variable {input : List τ} {index : Nat} {memo : σ} (hg : g.Checked) (hs : s.Lawful (Tables.build g))
  (hx : ∀ token ∈ s.endToken :: input, s.symbol token < g.symbols)
  (hend : ∀ p ∈ g.productions, s.symbol s.endToken ∉ p.rhs)
  (hself : ∀ a, g.IsTerminal (s.symbol a) → built a [a]) (hreduce : s.BuildsFrom g built input)

include hg hs hx hend hself hreduce

/-- Along the turns of a run the sources keep step with the stack. -/
theorem traced_of_leads {n : Nat} {d : Config τ σ}
    (hl : Leads (Tables.build g) s n (Config.start s index input memo) d) :
    (∃ numbers, Reads g s input index numbers
        (shiftedIn (Tables.build g) s (history (Tables.build g) s n (Config.start s index input memo))) d) ∧
      Traced built (shiftedIn (Tables.build g) s (history (Tables.build g) s n (Config.start s index input memo)))
        d.stack (sourcesOf (Tables.build g) s (history (Tables.build g) s n (Config.start s index input memo))) := by
  induction n generalizing d with
  | zero =>
    cases hl
    refine ⟨⟨[], .start memo⟩, ?_, rfl⟩
    rw [Config.start_stack]
    exact .nil
  | succ n ih =>
    obtain ⟨e, he, hstep⟩ := hl.exists_last
    obtain ⟨⟨numbers, hreads⟩, htraced⟩ := ih he
    have hnext : s.symbol e.next < g.symbols := hreads.place.1 ▸ s.forall_stream hx _
    obtain ⟨hmove, -⟩ := hreads.stacked.move hg hs hnext hstep
    have hhistory : history (Tables.build g) s (n + 1) (Config.start s index input memo) =
        history (Tables.build g) s n (Config.start s index input memo) ++ [e] := by
      rw [he.history, history, hstep]
      rfl
    have hread : s.BuildsFrom g built
        (shiftedIn (Tables.build g) s (history (Tables.build g) s n (Config.start s index input memo))) :=
      hreduce.infix (hreads.isPrefix hg hend).isInfix
    have hshifted : shiftedIn (Tables.build g) s [e] = (e.shifted? (Tables.build g) s).toList := by
      rw [shiftedIn_cons]
      exact List.append_nil _
    rw [hhistory, shiftedIn, List.filterMap_append, ← shiftedIn, ← shiftedIn, hshifted, sourcesOf, List.foldl_append,
      ← sourcesOf]
    exact ⟨⟨_, hreads.go hg hs hnext hstep⟩, hmove.traced hself hread htraced⟩

/-- What a run returns is built from all that was shifted, and before every turn the tokens on the stack are built from
their sources, which are the first tokens of the input. -/
theorem run_traced (hi : index < g.goals.length) (fuel : Nat) (memo : σ) :
    let turns := historyOf (Tables.build g) s fuel index input memo
    (∀ (n : Nat) (c : Config τ σ), turns[n]? = some c →
      shiftedIn (Tables.build g) s (turns.take n) <+: input ∧
        Traced built (shiftedIn (Tables.build g) s (turns.take n)) c.stack
          (sourcesOf (Tables.build g) s (turns.take n))) ∧
      ∀ token, (run (Tables.build g) s fuel index input memo).result = .ok token →
        built token (shiftedIn (Tables.build g) s turns) := by
  dsimp only
  rw [historyOf_eq hi, run_eq hi]
  constructor
  · intro n c hc
    obtain ⟨hl, htake⟩ := leads_of_getElem?_history hc
    obtain ⟨⟨numbers, hreads⟩, htraced⟩ := traced_of_leads hg hs hx hend hself hreduce hl
    rw [htake]
    exact ⟨hreads.isPrefix hg hend, htraced⟩
  · intro token h
    obtain ⟨n, hn, d, hl, o, hstop, ho⟩ := exists_leads_of_turns h
    obtain ⟨-, htraced⟩ := traced_of_leads hg hs hx hend hself hreduce hl
    obtain ⟨hd, hstack⟩ : d.decision (Tables.build g) s = .accept ∧ d.stack = [token] := by
      obtain ⟨e, stats, memo, he⟩ | ⟨stats, memo, he⟩ := Config.step_eq (Tables.build g) s d
      · rw [he] at hstop
        cases hstop
        cases ho
      · rw [he] at hstop
        obtain ⟨hd, hstack⟩ := Config.act_eq_stop hstop ho
        exact ⟨hd, hstack⟩
    -- the turn that accepts shifts nothing
    obtain ⟨fuel, rfl⟩ : ∃ k, fuel = n + (k + 1) := ⟨fuel - n - 1, by omega⟩
    have hlast : shiftedIn (Tables.build g) s [d] = [] := by
      rw [shiftedIn_cons, Config.shifted?, hd]
      rfl
    rw [hl.history, history, hstop, shiftedIn, List.filterMap_append, ← shiftedIn, ← shiftedIn, hlast, List.append_nil]
    rw [hstack] at htraced
    exact htraced.singleton

end

end Formula.LR
