import Formula.Proofs.Expr.Turns

/-!
# Between parentheses

What the parser does with an expression between parentheses is what it does with the expression alone. The states are
not the same: at the start of a text the parser also expects relations, intervals and sets. But they differ on few rows
of symbols only (`Interior.special`), and there the tables agree on everything that is no step towards more than an
expression (`Interior.exceeds`). This is computed once (`Interior.chart`). Two stacks of states above the same row,
one from the start of the text and one from inside of parentheses, therefore have the same top or one of a few pairs of
tops (`Interior.Paired.tops`).
-/

namespace Formula

open LR (Action Tables)

namespace Interior

/-! ## Rows that exceed an expression -/

/-- Symbols that stand for more than an expression. -/
def wholes : List Symbol := [.start, .definitionStart, .equation, .definition, .interval]

/-- A row, from its bottom on, begins with what only a relation, an interval or the name of a set begins with. -/
def beginsWhole : List Symbol → Bool
  | .identifier :: x :: _ => x ∉ [Symbol.leftParen, .subscript, .compose]
  | .expression :: x :: _ => x ∈ [Symbol.equal, .notEqual, .less, .greater]
  | .leftParen :: .expression :: .comma :: _ => true
  | .leftBracket :: .expression :: .comma :: _ => true
  | _ => false

/-- What is on the stack can only become more than an expression. -/
def exceeds (row : List Symbol) : Bool := row.any (· ∈ wholes) || beginsWhole row.reverse

theorem beginsWhole_append {bottom : List Symbol} (h : beginsWhole bottom = true) (row : List Symbol) :
    beginsWhole (bottom ++ row) = true := by
  unfold beginsWhole at h
  split at h
  · exact h
  · exact h
  · rfl
  · rfl
  · cases h

/-- Behind its first two symbols it only counts whether a comma follows. -/
theorem beginsWhole_congr {x y : Symbol} {row row' : List Symbol}
    (hcomma : row.head? = some .comma → row'.head? = some .comma) (h : beginsWhole (x :: y :: row) = true) :
    beginsWhole (x :: y :: row') = true := by
  unfold beginsWhole at h
  split at h
  case h_1 heq | h_2 heq =>
    cases heq
    exact h
  case h_3 heq | h_4 heq =>
    cases heq
    obtain ⟨rest, rfl⟩ := List.head?_eq_some_iff.mp (hcomma rfl)
    rfl
  case h_5 => cases h

theorem exceeds_cons {row : List Symbol} (h : exceeds row = true) (x : Symbol) : exceeds (x :: row) = true := by
  unfold exceeds at h ⊢
  rw [Bool.or_eq_true] at h ⊢
  rcases h with h | h
  · rw [List.any_cons, h, Bool.or_true]
    exact .inl rfl
  · rw [List.reverse_cons]
    exact .inr (beginsWhole_append h _)

theorem exceeds_tail {row : List Symbol} {x : Symbol} (h : exceeds (x :: row) = false) : exceeds row = false := by
  cases hrow : exceeds row with
  | false => rfl
  | true =>
    rw [exceeds_cons hrow] at h
    cases h

theorem not_mem_wholes {row : List Symbol} {x : Symbol} (h : exceeds (x :: row) = false) : x ∉ wholes := by
  intro hx
  rw [exceeds, List.any_cons, decide_eq_true hx] at h
  cases h

theorem wholes_closed : ∀ f ∈ Rule.table, f.rhs.any (· ∈ wholes) = true → f.lhs ∈ wholes := by
  decide

theorem beginsWhole_rhs : ∀ f ∈ Rule.table, beginsWhole f.rhs = true → f.lhs ∈ wholes := by
  decide

theorem beginsWhole_cons_rhs : ∀ f ∈ Rule.table, ∀ x ∈ Symbol.all, beginsWhole (x :: f.rhs) = true →
    beginsWhole [x, f.lhs] = true := by
  decide

theorem head_rhs : ∀ f ∈ Rule.table, f.rhs.head? ≠ some .comma := by
  decide

theorem mem_all (x : Symbol) : x ∈ Symbol.all := List.mem_of_getElem? x.all_getElem?_index

/-- A reduction does not lead back. -/
theorem exceeds_reduce {f : Rule.Form} (hf : f ∈ Rule.table) {row : List Symbol}
    (h : exceeds (f.rhs.reverse ++ row) = true) : exceeds (f.lhs :: row) = true := by
  have hwhole : f.lhs ∈ wholes → exceeds (f.lhs :: row) = true := fun hl => by
    rw [exceeds, List.any_cons, decide_eq_true hl]
    rfl
  unfold exceeds at h
  rw [Bool.or_eq_true, List.any_append, Bool.or_eq_true, List.any_reverse] at h
  rcases h with (h | h) | h
  · exact hwhole (wholes_closed f hf h)
  · rw [exceeds, List.any_cons, h, Bool.or_true]
    rfl
  · rw [List.reverse_append, List.reverse_reverse] at h
    cases hrow : row.reverse with
    | nil =>
      rw [hrow, List.nil_append] at h
      exact hwhole (beginsWhole_rhs f hf h)
    | cons x above =>
      have hgoal : beginsWhole (x :: (above ++ [f.lhs])) = true → exceeds (f.lhs :: row) = true := fun hb => by
        rw [exceeds, List.reverse_cons, hrow, List.cons_append, hb, Bool.or_true]
      rw [hrow, List.cons_append] at h
      refine hgoal ?_
      cases above with
      | nil => exact beginsWhole_cons_rhs f hf x (mem_all x) h
      | cons y above =>
        rw [List.cons_append] at h ⊢
        refine beginsWhole_congr (fun hcomma => ?_) h
        cases above with
        | nil => exact absurd hcomma (head_rhs f hf)
        | cons z above => exact hcomma

/-! ## What the tables say -/

section

variable (t : Tables)

/-- The actions of a state, one for each symbol. -/
def actions (n : Nat) : List Action := ((t.rows[n]?).map Array.toList).getD []

/-- The state behind a symbol, if it is shifted or put in the place of a phrase. -/
def behind? (n : Nat) (x : Symbol) : Option Nat :=
  match t.lookup n x.index with
  | .shift m | .goto m => some m
  | .ambiguous k =>
    match (t.choice k).1 with
    | .shift m => some m
    | _ => none
  | _ => none

/-- The state above a row of symbols. -/
def walk (n : Nat) : List Symbol → Option Nat
  | [] => some n
  | x :: row => (walk n row).bind (behind? t · x)

/-- The rows above which the states are not the same at the start of a text and between parentheses. -/
def special : List (List Symbol) :=
  [[], [.expression], [.identifier], [.leftParen], [.expression, .leftParen], [.leftBracket], [.expression, .leftBracket]]

/-- The states behind an opening parenthesis in which the parser can read one name and close the parenthesis. -/
def interiors : List Nat :=
  ((List.range t.stateCount).filterMap (behind? t · .leftParen)).eraseDups.filter fun q =>
    (behind? t q .identifier).any fun n => t.lookup n Symbol.rightParen.index != .error

/-- Both are shifts, or both go on behind a nonterminal. -/
def kindred : Action → Action → Bool
  | .shift _, .shift _ | .goto _, .goto _ => true
  | _, _ => false

/-- Above a special row, the action between parentheses is the action at the start of a text, except for steps
towards more than an expression and for states that are special again. -/
def agrees (row : List Symbol) (x : Symbol) : Action → Action → Bool
  | .error, _ => true
  | .accept, _ => false
  | .reduce p, a => a == .reduce p
  | .ambiguous k, a => exceeds (x :: row) && a == (t.choice k).2
  | .shift n, a =>
    exceeds (x :: row) ||
      if x :: row ∈ special then kindred (.shift n) a else a == .shift n
  | .goto n, a =>
    exceeds (x :: row) ||
      if x :: row ∈ special then kindred (.goto n) a else a == .goto n

/-- In front of the closing parenthesis, the action is the one at the end of a text, except for reductions to more than
an expression. -/
def closes (m m' : Nat) : Bool :=
  match t.lookup m Symbol.finish.index with
  | .reduce p => t.lookup m' Symbol.rightParen.index == .reduce p || (Rule.form? p).any (·.lhs ∈ wholes)
  | _ => true

/-- The two states above a special row. -/
def agreeAbove (q : Nat) (row : List Symbol) : Bool :=
  match walk t 0 row, walk t q row with
  | some m, some m' =>
    closes t m m' && (actions t m').length == Symbol.all.length &&
      (Symbol.all.zip ((actions t m).zip (actions t m'))).all fun (x, a, a') => x == .finish || agrees t row x a a'
  | _, _ => false

/-- Nothing leads to the start of a text, and only a name at the start to the state behind it. -/
def enters (n : Nat) (x : Symbol) (m : Nat) : Bool :=
  m != 0 && (walk t 0 [.identifier] != some m || n == 0 && x == .identifier)

/-- What is said of every cell: the end of a text is not shifted, only bars leave a choice, and only at the start of a
text one between a name and something else. -/
def regular (n : Nat) (x : Symbol) : Action → Bool
  | .shift m | .goto m => x != .finish && enters t n x m
  | .ambiguous k =>
    x == .bar && match t.choice k with
      | (.shift m, .reduce p) =>
        enters t n x m && ((Rule.form? p).all (·.rule != .identifier) || walk t 0 [.identifier] == some n)
      | _ => false
  | _ => true

end

/-- What is known of the tables. -/
structure Charted (t : Tables) : Prop where
  symbols : t.grammar.symbols = Symbol.all.length
  states : ∀ n ∈ List.range t.stateCount, closes t n n = true ∧
    ∀ c ∈ Symbol.all.zip (actions t n), regular t n c.1 c.2 = true
  interiors : ∀ q ∈ interiors t, ∀ row ∈ special, agreeAbove t q row = true

-- one evaluation, so that the tables are computed once
theorem chart :
    (∀ n ∈ List.range Rule.tables.stateCount, closes Rule.tables n n = true ∧
      ∀ c ∈ Symbol.all.zip (actions Rule.tables n), regular Rule.tables n c.1 c.2 = true) ∧
    ∀ q ∈ interiors Rule.tables, ∀ row ∈ special, agreeAbove Rule.tables q row = true := by
  decide +kernel

theorem charted : Charted Rule.tables := ⟨rfl, chart.1, chart.2⟩

/-! ## Cells -/

section

variable {t : Tables} {n m p k : Nat} {x : Symbol}

theorem behind?_of_shift (h : t.lookup n x.index = .shift m) : behind? t n x = some m := by
  unfold behind?
  rw [h]

theorem behind?_of_goto (h : t.lookup n x.index = .goto m) : behind? t n x = some m := by
  unfold behind?
  rw [h]

theorem behind?_of_ambiguous (h : t.lookup n x.index = .ambiguous k) (hk : t.choice k = (.shift m, .reduce p)) :
    behind? t n x = some m := by
  unfold behind?
  rw [h]
  dsimp only
  rw [hk]

theorem closes_of_reduce {m' : Nat} (h : closes t m m' = true) (hl : t.lookup m Symbol.finish.index = .reduce p) :
    t.lookup m' Symbol.rightParen.index = .reduce p ∨ (Rule.form? p).any (·.lhs ∈ wholes) = true := by
  unfold closes at h
  rw [hl] at h
  dsimp only at h
  rwa [Bool.or_eq_true, beq_iff_eq] at h

end

namespace Charted

-- for any tables, so that those of the notation are not computed
variable {t : Tables} (h : Charted t) {n m : Nat} {x : Symbol} {a : Action}

include h

/-- The actions of a state, looked up. -/
theorem lookup_eq (n : Nat) (x : Symbol) : t.lookup n x.index = (actions t n)[x.index]?.getD .error := by
  have hx : x.index < t.grammar.symbols := h.symbols ▸ (List.getElem?_eq_some_iff.mp x.all_getElem?_index).1
  rw [t.lookup_eq_getElem? hx, actions]
  cases t.rows[n]? with
  | none => rfl
  | some row =>
    show (row[x.index]?).getD .error = (row.toList[x.index]?).getD .error
    rw [Array.getElem?_toList]

/-- An action that is looked up stands in the row of the state. -/
theorem actions_getElem? (hl : t.lookup n x.index = a) (ha : a ≠ .error) : (actions t n)[x.index]? = some a := by
  rw [h.lookup_eq] at hl
  cases hrow : (actions t n)[x.index]? with
  | none =>
    rw [hrow] at hl
    exact absurd hl.symm ha
  | some b =>
    rw [hrow] at hl
    exact congrArg some hl

theorem lt_stateCount (hl : t.lookup n x.index = a) (ha : a ≠ .error) : n < t.stateCount := by
  by_contra hn
  have hrow : t.rows[n]? = none := Array.getElem?_eq_none (Nat.le_of_not_lt hn)
  have := h.actions_getElem? hl ha
  rw [actions, hrow] at this
  cases this

theorem regular (hl : t.lookup n x.index = a) (ha : a ≠ .error) : regular t n x a = true := by
  refine (h.states n (List.mem_range.mpr (h.lt_stateCount hl ha))).2 (x, a) (List.mem_of_getElem? (i := x.index) ?_)
  rw [List.getElem?_zip_eq_some]
  exact ⟨x.all_getElem?_index, h.actions_getElem? hl ha⟩

/-- In front of a closing parenthesis a state does what it does at the end of a text. -/
theorem closes (n : Nat) : closes t n n = true := by
  by_cases hn : n < t.stateCount
  · exact (h.states n (List.mem_range.mpr hn)).1
  · unfold Interior.closes
    split
    · rename_i hl
      exact absurd (h.lt_stateCount hl (by simp)) hn
    · rfl

/-- The actions above a special row agree. -/
theorem agrees {q : Nat} (hq : q ∈ Interior.interiors t) {row : List Symbol} (hrow : row ∈ special) :
    ∃ m m', walk t 0 row = some m ∧ walk t q row = some m' ∧ Interior.closes t m m' = true ∧
      ∀ x ≠ Symbol.finish, Interior.agrees t row x (t.lookup m x.index) (t.lookup m' x.index) = true := by
  have habove := h.interiors q hq row hrow
  unfold agreeAbove at habove
  split at habove
  · rename_i m m' hm hm'
    rw [Bool.and_eq_true, Bool.and_eq_true, beq_iff_eq] at habove
    obtain ⟨⟨hcloses, hlength⟩, hall⟩ := habove
    refine ⟨m, m', hm, hm', hcloses, fun x hx => ?_⟩
    by_cases ha : t.lookup m x.index = .error
    · rw [ha]
      rfl
    · obtain ⟨a', ha'⟩ : ∃ a', (actions t m')[x.index]? = some a' :=
        ⟨_, List.getElem?_eq_getElem (hlength ▸ (List.getElem?_eq_some_iff.mp x.all_getElem?_index).1)⟩
      have hmem : (x, t.lookup m x.index, t.lookup m' x.index) ∈ Symbol.all.zip ((actions t m).zip (actions t m')) := by
        refine List.mem_of_getElem? (i := x.index) ?_
        rw [List.getElem?_zip_eq_some, List.getElem?_zip_eq_some, h.lookup_eq m', ha']
        exact ⟨x.all_getElem?_index, h.actions_getElem? rfl ha, rfl⟩
      have := List.all_eq_true.mp hall _ hmem
      rw [Bool.or_eq_true, beq_iff_eq] at this
      exact this.resolve_left hx
  · cases habove

/-- An open choice is one in front of a bar, between a shift and a reduction. Only at the start of a text it is one
between a name and something else. -/
theorem ambiguous {k : Nat} (hl : t.lookup n x.index = .ambiguous k) :
    x = .bar ∧ ∃ m p, t.choice k = (.shift m, .reduce p) ∧ enters t n x m = true ∧
      ((Rule.form? p).all (·.rule != .identifier) = true ∨ walk t 0 [.identifier] = some n) := by
  have hk := h.regular hl (by simp)
  rw [Interior.regular, Bool.and_eq_true, beq_iff_eq] at hk
  obtain ⟨hx, hk⟩ := hk
  refine ⟨hx, ?_⟩
  split at hk
  · rename_i m p heq
    rw [Bool.and_eq_true, Bool.or_eq_true, beq_iff_eq] at hk
    exact ⟨m, p, heq, hk⟩
  · cases hk

/-- The end of a text is not shifted, nothing leads to its start, and only a name there to the state behind it. -/
theorem behind (hb : behind? t n x = some m) :
    x ≠ .finish ∧ m ≠ 0 ∧ (walk t 0 [.identifier] = some m → n = 0 ∧ x = .identifier) := by
  have henters : x ≠ .finish ∧ enters t n x m = true := by
    unfold behind? at hb
    split at hb
    · rename_i k hl
      obtain rfl := Option.some.inj hb
      simpa [Interior.regular] using h.regular hl (by simp)
    · rename_i k hl
      obtain rfl := Option.some.inj hb
      simpa [Interior.regular] using h.regular hl (by simp)
    · rename_i k hl
      obtain ⟨rfl, m', p, heq, hm, -⟩ := h.ambiguous hl
      rw [heq] at hb
      obtain rfl := Option.some.inj hb
      exact ⟨by decide, hm⟩
    · cases hb
  refine ⟨henters.1, ?_⟩
  have := henters.2
  simp only [enters, Bool.and_eq_true, Bool.or_eq_true, bne_iff_ne, beq_iff_eq] at this
  exact ⟨this.1, fun hw => this.2.resolve_left (fun hne => hne hw)⟩

end Charted

/-! ## Two stacks of states -/

section

variable {t : Tables} {row : List Symbol} {x : Symbol} {n p k : Nat} {a : Action}

theorem agrees_shift (h : agrees t row x (.shift n) a = true) (hrow : exceeds (x :: row) = false) :
    ∃ m, a = .shift m ∧ (x :: row ∉ special → m = n) := by
  have h : (exceeds (x :: row) || if x :: row ∈ special then kindred (.shift n) a else a == .shift n) = true := h
  rw [hrow, Bool.false_or] at h
  split at h
  · rename_i hs
    cases a with
    | shift m => exact ⟨m, rfl, fun hn => absurd hs hn⟩
    | _ => cases h
  · exact ⟨n, beq_iff_eq.mp h, fun _ => rfl⟩

theorem agrees_goto (h : agrees t row x (.goto n) a = true) (hrow : exceeds (x :: row) = false) :
    ∃ m, a = .goto m ∧ (x :: row ∉ special → m = n) := by
  have h : (exceeds (x :: row) || if x :: row ∈ special then kindred (.goto n) a else a == .goto n) = true := h
  rw [hrow, Bool.false_or] at h
  split at h
  · rename_i hs
    cases a with
    | goto m => exact ⟨m, rfl, fun hn => absurd hs hn⟩
    | _ => cases h
  · exact ⟨n, beq_iff_eq.mp h, fun _ => rfl⟩

theorem agrees_reduce (h : agrees t row x (.reduce p) a = true) : a = .reduce p := beq_iff_eq.mp h

theorem agrees_ambiguous (h : agrees t row x (.ambiguous k) a = true) :
    exceeds (x :: row) = true ∧ a = (t.choice k).2 := by
  have h : (exceeds (x :: row) && a == (t.choice k).2) = true := h
  rwa [Bool.and_eq_true, beq_iff_eq] at h

end

/-- Two stacks of states above the same row of symbols, one from the start of a text and one from inside of
parentheses. -/
inductive Paired (t : Tables) (q : Nat) : List Symbol → List Nat → List Nat → Prop where
  | start : Paired t q [] [0] [q]
  | push {row : List Symbol} {x : Symbol} {m m' n n' : Nat} {ms ms' : List Nat}
      (h : Paired t q row (m :: ms) (m' :: ms')) (hn : behind? t m x = some n) (hn' : behind? t m' x = some n') :
      Paired t q (x :: row) (n :: m :: ms) (n' :: m' :: ms')

namespace Paired

variable {t : Tables} {q m m' : Nat} {row : List Symbol} {ms ms' : List Nat}

theorem length_eq (h : Paired t q row ms ms') : ms.length = row.length + 1 ∧ ms'.length = row.length + 1 := by
  induction h with
  | start => exact ⟨rfl, rfl⟩
  | push _ _ _ ih => exact ⟨congrArg (· + 1) ih.1, congrArg (· + 1) ih.2⟩

/-- What is left of the stacks below a part of the row. -/
theorem drop {above : List Symbol} (h : Paired t q (above ++ row) ms ms') :
    ∃ upper upper' b b' below below', ms = upper ++ b :: below ∧ ms' = upper' ++ b' :: below' ∧
      upper.length = above.length ∧ upper'.length = above.length ∧ Paired t q row (b :: below) (b' :: below') := by
  induction above generalizing ms ms' with
  | nil =>
    cases h with
    | start => exact ⟨[], [], _, _, _, _, rfl, rfl, rfl, rfl, .start⟩
    | push h hn hn' => exact ⟨[], [], _, _, _, _, rfl, rfl, rfl, rfl, .push h hn hn'⟩
  | cons x above ih =>
    cases h with
    | @push _ _ _ _ n n' _ _ h hn hn' =>
      obtain ⟨upper, upper', b, b', below, below', he, he', hl, hl', hp⟩ := ih h
      exact ⟨n :: upper, n' :: upper', b, b', below, below', by rw [he]; rfl, by rw [he']; rfl,
        congrArg (· + 1) hl, congrArg (· + 1) hl', hp⟩

theorem walk_eq (h : Paired t q row (m :: ms) (m' :: ms')) : walk t 0 row = some m ∧ walk t q row = some m' := by
  generalize hs : m :: ms = states at h
  generalize hs' : m' :: ms' = states' at h
  induction h generalizing m m' ms ms' with
  | start =>
    cases hs
    cases hs'
    exact ⟨rfl, rfl⟩
  | push h hn hn' ih =>
    cases hs
    cases hs'
    obtain ⟨hw, hw'⟩ := ih rfl rfl
    exact ⟨by rw [walk, hw]; exact hn, by rw [walk, hw']; exact hn'⟩

/-- If what lies behind a symbol is the same state above each of some rows, unless the row with the symbol is again one
of them or has left what is read, then above all other rows the states are the same. -/
theorem eq_of_behind?_eq {rows : List (List Symbol)} {left : List Symbol → Bool} (hstart : [] ∈ rows)
    (hleft : ∀ x row, left (x :: row) = false → left row = false)
    (hrows : ∀ row ∈ rows, ∀ m m', walk t 0 row = some m → walk t q row = some m' → ∀ x n n', left (x :: row) = false →
      x :: row ∉ rows → behind? t m x = some n → behind? t m' x = some n' → n = n')
    (h : Paired t q row (m :: ms) (m' :: ms')) (hrow : left row = false) (hother : row ∉ rows) : m = m' := by
  generalize hs : m :: ms = states at h
  generalize hs' : m' :: ms' = states' at h
  induction h generalizing m m' ms ms' with
  | start => exact absurd hstart hother
  | @push row x m m' n n' ms ms' h hn hn' ih =>
    cases hs
    cases hs'
    by_cases hbelow : row ∈ rows
    · obtain ⟨hw, hw'⟩ := h.walk_eq
      exact hrows row hbelow m m' hw hw' x n n' hrow hother hn hn'
    · obtain rfl := ih (hleft x row hrow) hbelow rfl rfl
      exact Option.some.inj (hn.symm.trans hn')

/-- Above all but the special rows the states are the same. -/
theorem eq_of_not_special (ht : Charted t) (hq : q ∈ interiors t) (h : Paired t q row (m :: ms) (m' :: ms'))
    (hrow : exceeds row = false) (hspecial : row ∉ special) : m = m' := by
  refine h.eq_of_behind?_eq (by decide) (fun _ _ => exceeds_tail) ?_ hrow hspecial
  intro row hbelow m m' hw hw' x n n' hrow hspecial hn hn'
  obtain ⟨k, k', hk, hk', -, hagrees⟩ := ht.agrees hq hbelow
  obtain rfl := Option.some.inj (hk.symm.trans hw)
  obtain rfl := Option.some.inj (hk'.symm.trans hw')
  have ha := hagrees x (ht.behind hn).1
  unfold behind? at hn hn'
  split at hn
  · rename_i i hl
    rw [hl] at ha
    obtain ⟨j, hj, hji⟩ := agrees_shift ha hrow
    rw [hj, hji hspecial] at hn'
    exact Option.some.inj (hn.symm.trans hn')
  · rename_i i hl
    rw [hl] at ha
    obtain ⟨j, hj, hji⟩ := agrees_goto ha hrow
    rw [hj, hji hspecial] at hn'
    exact Option.some.inj (hn.symm.trans hn')
  · rename_i i hl
    rw [hl] at ha
    rw [(agrees_ambiguous ha).1] at hrow
    cases hrow
  · cases hn

/-- Where the one stack can go on behind a nonterminal, the other one can too. -/
theorem exists_goto (ht : Charted t) (hq : q ∈ interiors t) (h : Paired t q row (m :: ms) (m' :: ms')) {x : Symbol}
    (hrow : exceeds (x :: row) = false) {n : Nat} (hl : t.lookup m x.index = .goto n) :
    ∃ n', t.lookup m' x.index = .goto n' := by
  by_cases hspecial : row ∈ special
  · obtain ⟨k, k', hk, hk', -, hagrees⟩ := ht.agrees hq hspecial
    obtain ⟨hw, hw'⟩ := h.walk_eq
    obtain rfl := Option.some.inj (hk.symm.trans hw)
    obtain rfl := Option.some.inj (hk'.symm.trans hw')
    have ha := hagrees x (ht.behind (behind?_of_goto hl)).1
    rw [hl] at ha
    obtain ⟨n', hn', -⟩ := agrees_goto ha hrow
    exact ⟨n', hn'⟩
  · rw [← h.eq_of_not_special ht hq (exceeds_tail hrow) hspecial]
    exact ⟨n, hl⟩

/-- The state behind a name at the start of a text stands there only. -/
theorem eq_singleton (ht : Charted t) (h : Paired t q row (m :: ms) ms') (hrow : row ≠ [])
    (hm : walk t 0 [.identifier] = some m) : row = [.identifier] := by
  cases h with
  | start => exact absurd rfl hrow
  | push h hn hn' =>
    obtain ⟨rfl, rfl⟩ := (ht.behind hn).2.2 hm
    cases h with
    | start => rfl
    | push _ hn _ => exact absurd rfl (ht.behind hn).2.1

end Paired

end Interior

end Formula
