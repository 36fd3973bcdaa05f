import Formula.Proofs.LR.Safety
import Formula.Proofs.LR.Viable

/-!
# The first wrong token is refused

Before a parser without conflicts refuses a token it may have reduced, because the token follows some phrase somewhere,
but it has not shifted: what it has read is the front of a sentence, and with the token behind it is none
(`refuses_first_wrong`).

Nothing is asked of the language. Tables without conflicts leave no choice open (`lookup_ne_ambiguous`), and where a
reduction leads on depends on the production alone. So the run is shadowed by one of a bare parser that reads symbols
(`Shadows.go`, `Leads.shadow`), on any word that agrees with the input up to the token in question. For the bare parser
what is read is derived from the row on its stack, and that row can be completed (`Leads.exists_sentence`). If the word
were a sentence, the bare parser would come to accept it (`succeeds_of_isSentence`) and could not refuse the token on
the way (`Succeeds.not_refuses`).
-/

namespace Formula.LR

variable {τ σ ε : Type} {g : Grammar} {t : Tables} {s : Semantics τ σ ε} {input : List τ} {c c' d : Config τ σ}

/-! ## No open choices -/

theorem Grammar.resolve_ne_ambiguous {x : Nat} {c : Cell} (h : g.conflicts x c = ⟨0, 0, 0⟩) (n i : Nat) :
    g.resolve x c ≠ .ambiguous n i := by
  unfold resolve
  split
  · rintro ⟨⟩
  · rename_i hacc
    split
    · rintro ⟨⟩
    · rintro ⟨⟩
    · rintro ⟨⟩
    · rintro ⟨⟩
    · rename_i hg hs hr
      rw [reduce_eq_nil h (Bool.eq_false_iff.mpr hacc) hg hs] at hr
      cases hr

/-- Tables without conflicts leave nothing open, in any place that a look-up may come to. -/
theorem lookup_ne_ambiguous (ha : g.Augmented) (hc : (Tables.build g).conflicts = ⟨0, 0, 0⟩) (n x k : Nat) :
    (Tables.build g).lookup n x ≠ .ambiguous k := by
  -- the row and the column that the look-up falls into
  have hg : 0 < g.symbols := Nat.zero_lt_of_lt ha.terminal
  have hx : (Tables.build g).place n x % g.symbols < g.symbols := Nat.mod_lt _ hg
  have hplace : (Tables.build g).lookup n x = (Tables.build g).lookup ((Tables.build g).place n x / g.symbols)
      ((Tables.build g).place n x % g.symbols) := lookup_wrap _ hg n x
  rw [hplace]
  cases hq : (g.states g.itemTable)[(Tables.build g).place n x / g.symbols]? with
  | none =>
    rw [lookup_eq_error hq hx]
    rintro ⟨⟩
  | some q =>
    obtain ⟨number, hl, -⟩ := lookup_eq hq hx
    rw [hl]
    have hne := g.resolve_ne_ambiguous (conflicts_cell hc (List.mem_of_getElem? hq) hx)
    cases hr : g.resolve _ (g.cell q _) with
    | ambiguous m i => exact absurd hr (hne m i)
    | _ => rintro ⟨⟩

/-! ## Refusal -/

/-- The turn refuses the next token: it decides on no shift, no reduction and no acceptance. -/
def Config.Refuses (t : Tables) (s : Semantics τ σ ε) (c : Config τ σ) : Prop :=
  (∀ n, c.decision t s ≠ .shift n) ∧ (∀ n, c.decision t s ≠ .reduce n) ∧ c.decision t s ≠ .accept

theorem Config.Refuses.of_decision (h : c.decision t s = .error) : c.Refuses t s := by
  unfold Refuses
  rw [h]
  exact ⟨nofun, nofun, nofun⟩

/-- Such a turn calls `unexpected` on the token. -/
theorem Config.Refuses.step (hopen : ∀ n x k, t.lookup n x ≠ .ambiguous k) (h : c.Refuses t s) :
    c.step t s = c.fail (s.unexpected c.next) := by
  have hdecision : c.decision t s = t.lookup c.state (s.symbol c.next) := decision_of_lookup rfl (hopen _ _)
  obtain ⟨hshift, hreduce, haccept⟩ := h
  rw [hdecision] at hshift hreduce haccept
  unfold Config.step
  cases hl : t.lookup c.state (s.symbol c.next) with
  | shift n => exact absurd hl (hshift n)
  | reduce n => exact absurd hl (hreduce n)
  | accept => exact absurd hl haccept
  | ambiguous k => exact absurd hl (hopen _ _ k)
  | error | goto => rfl

/-- On the way to acceptance nothing is refused. -/
theorem Succeeds.not_refuses (hopen : ∀ n x k, t.lookup n x ≠ .ambiguous k) {x n : Nat} (h : Succeeds t s x c)
    (hd : Leads t s n c d) : ¬ d.Refuses t s := by
  intro hrefuses
  obtain ⟨m, e, o, token, he, hstop, ho, -⟩ := h
  have hrefused : turns t s (n + m + 1) c = _ := hd.turns_of_stop (hrefuses.step hopen) (by omega)
  rw [he.turns_of_stop hstop (by omega)] at hrefused
  rw [hrefused] at ho
  cases ho

/-- A sentence is accepted. -/
theorem succeeds_of_isSentence (hf : Fits g s) {index goal x : Nat} (hindex : g.goals[index]? = some goal)
    {r : Production} (hr : g.productions[goal]? = some r) (hrx : r.rhs = [x])
    (h : g.IsSentence x (input.map s.symbol)) (memo : σ) :
    Succeeds (Tables.build g) s x (Config.start s index input memo) := by
  have hc := hf.augmented.checked
  have hg := List.mem_of_getElem? hindex
  have hb := g.states_goal hf.augmented hindex
  have hstart : Faces g s index ⟨goal, 0⟩ (input.map s.symbol ++ []) (Config.start s index input memo) := by
    rw [List.append_nil]
    refine ⟨?_, ⟨_, ?_, (g.holds_start_iff hc.nonterminals_le hr).mpr (.inl rfl)⟩, Config.advance_ahead rfl,
      fun a ha => ⟨?_, h.isTerminal a ha⟩⟩
    · rw [Config.start_states, Config.start_stack]
      exact .start
    · rw [Config.state, Config.start_states]
      exact hb
    · refine h.derives.lt_symbols hc (fun b hb => ?_) a ha
      exact hc.rhs_lt r (List.mem_of_getElem? hr) b (hrx ▸ hb)
  rcases yields_leads (d := 0) hf hg hb hr hrx (h.derives.yields h.isTerminal) hr hrx hstart (g.follows_goal hc hg hr)
    with hsucc | ⟨n, e, states, stack, hlead, hface, -, hstack, -, hrow⟩
  · exact hsucc
  -- the symbol of the goal is on the stack, and the end is next
  obtain ⟨q, hq, hi⟩ := hface.holds
  rw [Config.start_stack, List.append_nil] at hstack
  obtain ⟨token, htoken, hsymbol⟩ := List.map_eq_singleton_iff.mp hrow
  refine ⟨n, e, _, token, hlead, Config.step_accept ?_ (hstack.trans htoken), rfl, hsymbol⟩
  rw [hface.ahead.1, List.headD_nil, hf.marker]
  exact lookup_accept hf.augmented hq hg hr hi

/-! ## The shadow of a run -/

/-- The bare parser of the word is in the same states, and has read the symbols of the same tokens. -/
structure Shadows (g : Grammar) (s : Semantics τ σ ε) (index : Nat) (word : List Nat) (read : List τ) (c : Config τ σ)
    (d : Config Nat Unit) : Prop where
  states : d.states = c.states
  reads : ∃ numbers, Reads g (shifter (Tables.build g)) word index numbers (read.map s.symbol) d

section

variable (ha : g.Augmented) (hcf : (Tables.build g).conflicts = ⟨0, 0, 0⟩) {index : Nat} {word : List Nat}
  {read : List τ} {e : Config Nat Unit}

theorem Shadows.start (memo : σ) :
    Shadows g s index word [] (Config.start s index input memo)
      (Config.start (shifter (Tables.build g)) index word ()) :=
  ⟨by rw [Config.start_states, Config.start_states], [], Reads.start ()⟩

include ha hcf

/-- Before the same symbol the bare parser decides the same. -/
theorem Shadows.decision_eq (h : Shadows g s index word read c e) (hnext : e.next = s.symbol c.next) :
    e.decision (Tables.build g) (shifter (Tables.build g)) = c.decision (Tables.build g) s := by
  have hopen := lookup_ne_ambiguous ha hcf
  rw [Config.decision_of_lookup rfl (hopen _ _), Config.decision_of_lookup rfl (hopen _ _), Config.state, h.states,
    Config.state, show (shifter (Tables.build g)).symbol e.next = e.next from rfl, hnext]

/-- Where a turn leads on, the bare parser leads on to the same states. -/
theorem Shadows.exists_go (h : Shadows g s index word read c e) (hnext : e.next = s.symbol c.next)
    (hc : c.step (Tables.build g) s = .go c') :
    ∃ e', e.step (Tables.build g) (shifter (Tables.build g)) = .go e' ∧ e'.states = c'.states := by
  obtain ⟨numbers, hreads⟩ := h.reads
  have hlookup : (Tables.build g).lookup e.state ((shifter (Tables.build g)).symbol e.next) =
      c.decision (Tables.build g) s :=
    (Config.decision_of_lookup rfl (lookup_ne_ambiguous ha hcf _ _)).symm.trans (h.decision_eq ha hcf hnext)
  obtain ⟨_, stats, memo, hstep⟩ | ⟨stats, memo, hstep⟩ := Config.step_eq (Tables.build g) s c
  · rw [hstep] at hc
    cases hc
  rw [hstep] at hc
  rcases Config.act_eq_go hc with ⟨m, hm, rfl⟩ | ⟨number, p, stack, top, below, m, _, _, hm, hp, -, hdrop, hgoto, rfl⟩
  · refine ⟨_, Config.step_shift (hlookup.trans hm), ?_⟩
    rw [Config.shift_states, Config.shift_states, h.states]
  · have hdrop : e.states.drop p.rhs.length = top :: below := h.states.symm ▸ hdrop
    -- there is one state more than there are symbols
    have hcount := hreads.stacked.length_eq
    rw [List.length_map] at hcount
    have hpop := congrArg List.length hdrop
    rw [List.length_drop, List.length_cons] at hpop
    have hbuilt : (shifter (Tables.build g)).reduce number e.next e.stack e.memo =
        (.ok (p.lhs :: e.stack.drop p.rhs.length), ()) := by
      simp only [shifter, hp]
    refine ⟨_, (Config.step_reduce (hlookup.trans hm)).trans
      (Config.act_reduce hp hbuilt ?_ (by rw [hdrop]; exact hgoto)), by rw [hdrop]⟩
    rw [List.length_drop, List.length_drop]
    omega

/-- The bare parser follows a turn that leads on, and reads the symbol of the token that it shifts. -/
theorem Shadows.go (h : Shadows g s index word read c e) (hnext : e.next = s.symbol c.next) (hx : e.next < g.symbols)
    (hc : c.step (Tables.build g) s = .go c') :
    ∃ e', e.step (Tables.build g) (shifter (Tables.build g)) = .go e' ∧
      Shadows g s index word (read ++ (c.shifted? (Tables.build g) s).toList) c' e' := by
  obtain ⟨numbers, hreads⟩ := h.reads
  obtain ⟨e', hstep, hstates⟩ := h.exists_go ha hcf hnext hc
  have hread := hreads.go ha.checked (lawful_shifter _) hx hstep
  have hshifted : (e.shifted? (Tables.build g) (shifter (Tables.build g))).toList =
      (c.shifted? (Tables.build g) s).toList.map s.symbol := by
    rw [Config.shifted?, Config.shifted?, h.decision_eq ha hcf hnext]
    cases c.decision (Tables.build g) s with
    | shift n => rw [Option.toList_some, Option.toList_some, List.map_singleton, hnext]
    | _ => rfl
  rw [hshifted, ← List.map_append] at hread
  exact ⟨e', hstep, hstates, _, hread⟩

/-- As long as the word agrees with the input, the bare parser follows. -/
theorem Leads.shadow {k : Nat} (hl : Leads (Tables.build g) s k c d) (h : Shadows g s index word read c e)
    (hc : c.At s input read.length)
    (hagree : ∀ n ≤ (read ++ shiftedIn (Tables.build g) s (LR.history (Tables.build g) s k c)).length,
      (shifter (Tables.build g)).stream word n = s.symbol (s.stream input n) ∧
        s.symbol (s.stream input n) < g.symbols) :
    ∃ e', Leads (Tables.build g) (shifter (Tables.build g)) k e e' ∧
      Shadows g s index word (read ++ shiftedIn (Tables.build g) s (LR.history (Tables.build g) s k c)) d e' := by
  induction hl generalizing read e with
  | refl =>
    rw [LR.history, shiftedIn, List.filterMap_nil, List.append_nil]
    exact ⟨e, .refl e, h⟩
  | @go k c c' d hstep _ ih =>
    rw [LR.history, hstep, shiftedIn_cons, ← List.append_assoc] at hagree ⊢
    obtain ⟨numbers, hreads⟩ := h.reads
    have hnow := hagree read.length (by simp only [List.length_append]; omega)
    have hplace := hreads.place.1
    rw [List.length_map, hnow.1, ← hc.1] at hplace
    obtain ⟨e', hstep', h'⟩ := h.go ha hcf hplace (hplace ▸ hc.1 ▸ hnow.2) hstep
    have hc' : c'.At s input (read ++ (c.shifted? (Tables.build g) s).toList).length := by
      rcases hc.go hstep with ⟨hs, hc'⟩ | ⟨hs, hc'⟩
      · rw [hs, Option.toList_none, List.append_nil]
        exact hc'
      · rw [hs, Option.toList_some, List.length_append]
        exact hc'
    obtain ⟨e'', hlead, hend⟩ := ih h' hc' hagree
    exact ⟨e'', .go hstep' hlead, hend⟩

end

/-! ## The front of a sentence -/

/-- The tokens that are shifted in the first turns of a run. -/
def firstShifted (t : Tables) (s : Semantics τ σ ε) (index : Nat) (input : List τ) (memo : σ) (turns : Nat) : List τ :=
  shiftedIn t s (history t s turns (Config.start s index input memo))

/-- The tokens shifted on the way from the start of a run are the front of the input. -/
theorem Leads.at_start {k index : Nat} {memo : σ} (h : Leads t s k (Config.start s index input memo) d) :
    let read := firstShifted t s index input memo k
    d.At s input read.length ∧ read = (List.range read.length).map (s.stream input) := by
  obtain ⟨hd, hread⟩ := h.shiftedIn_eq (n := 0) (Config.advance_at rfl)
  simp only [Nat.zero_add] at hd hread
  exact ⟨hd, hread⟩

/-- A word that begins with the tokens read and goes on with the next one agrees with the input that far. -/
theorem stream_shifter {read : List τ} (hread : read = (List.range read.length).map (s.stream input))
    {rest : List Nat} (hrest : rest.headD t.grammar.endMarker = s.symbol (s.stream input read.length)) {n : Nat}
    (hn : n ≤ read.length) : (shifter t).stream (read.map s.symbol ++ rest) n = s.symbol (s.stream input n) := by
  rw [Semantics.stream]
  rcases Nat.lt_or_eq_of_le hn with hn | rfl
  · have hget : read[n]? = some (s.stream input n) := by
      rw [hread, List.getElem?_map, List.getElem?_range hn, Option.map_some]
    rw [List.getElem?_append_left (by rwa [List.length_map]), List.getElem?_map, hget, Option.map_some,
      Option.getD_some]
  · rw [List.getElem?_append_right (by rw [List.length_map]), List.length_map, Nat.sub_self, ← hrest]
    cases rest <;> rfl

theorem map_symbol_shifter (word : List Nat) : word.map (shifter t).symbol = word := List.map_id word

section

variable {word : List Nat} {read : List τ} {e : Config Nat Unit}

variable (ha : g.Augmented) (hg : g.Productive) (hcf : (Tables.build g).conflicts = ⟨0, 0, 0⟩) {index goal x : Nat}
  (hindex : g.goals[index]? = some goal) {r : Production} (hr : g.productions[goal]? = some r) (hrx : r.rhs = [x])
  {memo : σ}

include ha hcf in
/-- On a word that goes on with the next token, the bare parser comes as far, having read the same. -/
theorem Leads.exists_shadow {k : Nat} (hl : Leads (Tables.build g) s k (Config.start s index input memo) d)
    {rest : List Nat}
    (hread : ∀ a ∈ firstShifted (Tables.build g) s index input memo k, s.symbol a < g.symbols)
    (hnext : s.symbol d.next < g.symbols) (hrest : rest.headD g.endMarker = s.symbol d.next) :
    let read := firstShifted (Tables.build g) s index input memo k
    let word := read.map s.symbol ++ rest
    ∃ e, Leads (Tables.build g) (shifter (Tables.build g)) k (Config.start (shifter (Tables.build g)) index word ()) e ∧
      Shadows g s index word read d e ∧ e.next = s.symbol d.next := by
  intro read word
  obtain ⟨⟨hlast, -⟩, heq⟩ := hl.at_start
  have hstream : ∀ n ≤ read.length,
      (shifter (Tables.build g)).stream word n = s.symbol (s.stream input n) := fun n hn =>
    stream_shifter heq (hrest.trans (congrArg s.symbol hlast)) hn
  have hsymbols : ∀ n ≤ read.length, s.symbol (s.stream input n) < g.symbols := by
    intro n hn
    rcases Nat.lt_or_eq_of_le hn with hn | rfl
    · refine hread _ ?_
      rw [heq]
      exact List.mem_map.mpr ⟨n, List.mem_range.mpr hn, rfl⟩
    · exact hlast ▸ hnext
  have hstart : Shadows g s index word [] (Config.start s index input memo) _ := .start memo
  obtain ⟨e, he, hshadow⟩ := hl.shadow ha hcf hstart (Config.advance_at rfl) fun n hn => ⟨hstream n hn, hsymbols n hn⟩
  refine ⟨e, he, hshadow, ?_⟩
  obtain ⟨numbers, hreads⟩ := hshadow.reads
  have hplace := hreads.place.1
  rw [List.length_map] at hplace
  exact hplace.trans ((hstream _ (Nat.le_refl _)).trans (congrArg s.symbol hlast.symm))

include ha hg hindex hr hrx in
/-- What the bare parser has read is the front of a sentence. -/
theorem Shadows.exists_sentence (h : Shadows g s index word read c e) :
    ∃ after, g.IsSentence x (read.map s.symbol ++ after) := by
  obtain ⟨numbers, hreads⟩ := h.reads
  have hb := g.states_goal ha hindex
  obtain ⟨after, hafter, hd⟩ := hreads.stacked.exists_derives ha hg hb hr hrx
  have hterminal := hreads.terminal
  have hrightmost := (hreads.rightmost after hafter).derives
  rw [map_symbol_shifter (read.map s.symbol)] at hterminal hrightmost
  exact ⟨after, hd.trans hrightmost, List.forall_mem_append.mpr ⟨hterminal, hafter⟩⟩

include ha hg hcf hindex hr hrx

/-- What was shifted is the front of a sentence. -/
theorem Leads.exists_sentence {k : Nat} (hl : Leads (Tables.build g) s k (Config.start s index input memo) d)
    (hread : ∀ a ∈ firstShifted (Tables.build g) s index input memo k, s.symbol a < g.symbols) :
    ∃ after, g.IsSentence x ((firstShifted (Tables.build g) s index input memo k).map s.symbol ++ after) := by
  induction k generalizing d with
  | zero =>
    obtain ⟨word, hword, hterminal⟩ := hg.exists_word [x]
    exact ⟨word, hword, hterminal⟩
  | succ k ih =>
    obtain ⟨c, hc, hstep⟩ := hl.exists_last
    have hlast : firstShifted (Tables.build g) s index input memo (k + 1) =
        firstShifted (Tables.build g) s index input memo k ++ (c.shifted? (Tables.build g) s).toList := by
      rw [firstShifted, hc.history, LR.history, hstep, shiftedIn, List.filterMap_append, List.filterMap_cons]
      cases c.shifted? (Tables.build g) s <;> rfl
    rw [hlast, List.forall_mem_append] at hread
    rw [hlast]
    rcases hc.at_start.1.go hstep with ⟨hnone, -⟩ | ⟨hsome, -⟩
    · rw [hnone, Option.toList_none, List.append_nil]
      exact ih hc hread.1
    -- the last turn shifts a token, and the bare parser shifts its symbol
    · rw [← hc.at_start.1.1] at hsome
      rw [hsome, Option.toList_some] at hread ⊢
      have hx : s.symbol c.next < g.symbols := hread.2 _ (List.mem_singleton_self _)
      have hrest : [s.symbol c.next].headD g.endMarker = s.symbol c.next := rfl
      obtain ⟨e, -, hshadow, hnext⟩ := hc.exists_shadow ha hcf hread.1 hx hrest
      obtain ⟨e', -, hshadow'⟩ := hshadow.go ha hcf hnext (hnext ▸ hx) hstep
      rw [hsome, Option.toList_some] at hshadow'
      exact hshadow'.exists_sentence ha hg hindex hr hrx

end

/-! ## The first wrong token -/

/-- The bare parser comes to refuse what the run refuses, on every word that goes on with it. -/
theorem Leads.not_isSentence (hf : Fits g (shifter (Tables.build g))) {index goal x : Nat}
    (hindex : g.goals[index]? = some goal) {r : Production} (hr : g.productions[goal]? = some r) (hrx : r.rhs = [x])
    {memo : σ} {k : Nat} (hl : Leads (Tables.build g) s k (Config.start s index input memo) d)
    (hrefuses : d.Refuses (Tables.build g) s)
    (hread : ∀ a ∈ firstShifted (Tables.build g) s index input memo k, s.symbol a < g.symbols)
    (hnext : s.symbol d.next < g.symbols) {rest : List Nat} (hrest : rest.headD g.endMarker = s.symbol d.next) :
    ¬ g.IsSentence x ((firstShifted (Tables.build g) s index input memo k).map s.symbol ++ rest) := by
  intro hsentence
  have ha := hf.augmented
  have hcf := hf.conflicts
  obtain ⟨e, he, hshadow, hsame⟩ := hl.exists_shadow ha hcf hread hnext hrest
  have hsucceeds := succeeds_of_isSentence hf hindex hr hrx (by rwa [map_symbol_shifter]) ()
  refine hsucceeds.not_refuses (lookup_ne_ambiguous ha hcf) he ?_
  have hdecision := hshadow.decision_eq ha hcf hsame
  unfold Config.Refuses at hrefuses ⊢
  rwa [hdecision]

/-- Errors are reported at the first wrong token: with tables without conflicts for a grammar in which every nonterminal
stands for some text and no end marker is in a production, a run whose last turn refuses a token ends with the error for
it. The tokens shifted before are the front of a sentence of the goal, and no sentence themselves if the end was
refused; with the token behind them they are the front of none. Whatever the language does in its reductions, this is
so. -/
theorem refuses_first_wrong (ha : g.Augmented) (hg : g.Productive) (hm : ∀ p ∈ g.productions, g.endMarker ∉ p.rhs)
    (hcf : (Tables.build g).conflicts = ⟨0, 0, 0⟩) {index goal x : Nat} (hindex : g.goals[index]? = some goal)
    {r : Production} (hr : g.productions[goal]? = some r) (hrx : r.rhs = [x]) (s : Semantics τ σ ε) (input : List τ)
    (memo : σ) {fuel : Nat} {last : Config τ σ}
    (hlast : (historyOf (Tables.build g) s fuel index input memo).getLast? = some last)
    (hrefuses : last.Refuses (Tables.build g) s)
    (hread : ∀ a ∈ shiftedIn (Tables.build g) s (historyOf (Tables.build g) s fuel index input memo),
      s.symbol a < g.symbols) :
    let word := (shiftedIn (Tables.build g) s (historyOf (Tables.build g) s fuel index input memo)).map s.symbol
    (run (Tables.build g) s fuel index input memo).result = .error (s.unexpected last.next) ∧
      (∃ after, g.IsSentence x (word ++ after)) ∧
      (s.symbol last.next = g.endMarker → ¬ g.IsSentence x word) ∧
      ∀ after, ¬ g.IsSentence x (word ++ s.symbol last.next :: after) := by
  have hf : Fits g (shifter (Tables.build g)) := ⟨ha, hm, hcf, total_shifter _, rfl⟩
  have hc := ha.checked
  have hi : index < g.goals.length := (List.getElem?_eq_some_iff.mp hindex).1
  have hopen := lookup_ne_ambiguous ha hcf
  rw [historyOf_eq hi] at hlast hread ⊢
  obtain ⟨n, hn, hl, hhistory⟩ := exists_leads_of_getLast? hlast
  have hstop := hrefuses.step hopen
  -- the turn that refuses shifts nothing
  have hshifted : shiftedIn (Tables.build g) s (history (Tables.build g) s fuel (Config.start s index input memo)) =
      firstShifted (Tables.build g) s index input memo n := by
    have hnone : last.shifted? (Tables.build g) s = none := by
      rw [Config.shifted?]
      split
      · exact absurd ‹_› (hrefuses.1 _)
      · rfl
    rw [hhistory, shiftedIn, List.filterMap_append, List.filterMap_cons_none hnone, List.filterMap_nil, List.append_nil]
    rfl
  rw [hshifted] at hread ⊢
  have hmarker : g.endMarker < g.symbols := Nat.sub_one_lt_of_lt ha.terminal
  refine ⟨?_, hl.exists_sentence ha hg hcf hindex hr hrx hread, fun hend => ?_, fun after => ?_⟩
  · rw [run_eq hi, hl.turns_of_stop hstop hn]
  · rw [← List.append_nil (List.map _ _)]
    exact hl.not_isSentence hf hindex hr hrx hrefuses hread (hend ▸ hmarker) (by rw [List.headD_nil, hend])
  · by_cases hsymbols : s.symbol last.next < g.symbols
    · exact hl.not_isSentence hf hindex hr hrx hrefuses hread hsymbols rfl
    · intro hsentence
      refine hsymbols (hsentence.derives.lt_symbols hc ?_ _ (List.mem_append_right _ List.mem_cons_self))
      exact fun b hb => hc.rhs_lt r (List.mem_of_getElem? hr) b (hrx ▸ hb)

theorem productive_nested : nested.Productive := by
  -- everything can be left out
  have hnest : nested.Derives [2] [] := .production (p := ⟨2, [], none⟩) (by decide)
  have htext : nested.Derives [1] [] := .trans (.production (p := ⟨1, [2], none⟩) (by decide)) hnest
  have hgoal : nested.Derives [0] [] := .trans (.production (p := ⟨0, [1], none⟩) (by decide)) htext
  refine fun a ha => ⟨[], ?_, by simp⟩
  match a, ha with
  | 0, _ => exact hgoal
  | 1, _ => exact htext
  | 2, _ => exact hnest

/-- A closing bracket too many: the pair before it is still reduced, then the bracket is refused. -/
theorem nested_refuses_first_wrong :
    let t := Tables.build nested
    let turns := historyOf t (shifter t) 100 0 [3, 4, 4] ()
    shiftedIn t (shifter t) turns = [3, 4] ∧ reducedIn t (shifter t) turns = [4, 3] ∧
      (run t (shifter t) 100 0 [3, 4, 4] ()).result = .error none ∧
      (∃ after, nested.IsSentence 1 ([3, 4] ++ after)) ∧ ∀ after, ¬ nested.IsSentence 1 ([3, 4] ++ 4 :: after) := by
  have hshifted : shiftedIn (Tables.build nested) (shifter (Tables.build nested))
      (historyOf (Tables.build nested) (shifter (Tables.build nested)) 100 0 [3, 4, 4] ()) = [3, 4] := by rfl
  have hmap : (historyOf (Tables.build nested) (shifter (Tables.build nested)) 100 0 [3, 4, 4] ()).getLast?.map
      (fun c => (c.decision (Tables.build nested) (shifter (Tables.build nested)), c.next)) = some (.error, 4) := by rfl
  obtain ⟨last, hlast, hend⟩ := Option.map_eq_some_iff.mp hmap
  obtain ⟨hdecision, hnext⟩ := Prod.mk.inj hend
  obtain ⟨hresult, hfront, -, hwrong⟩ := refuses_first_wrong fits_nested.augmented productive_nested
    fits_nested.markerless fits_nested.conflicts (r := ⟨0, [1], none⟩) rfl rfl rfl (shifter (Tables.build nested))
    [3, 4, 4] () hlast (.of_decision hdecision) (by rw [hshifted]; decide)
  rw [hshifted] at hfront hwrong
  rw [show (shifter (Tables.build nested)).symbol last.next = 4 from hnext] at hwrong
  exact ⟨hshifted, by rfl, hresult, hfront, hwrong⟩

end Formula.LR
