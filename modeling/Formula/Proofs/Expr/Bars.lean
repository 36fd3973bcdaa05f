import Formula.Expr.Bars

/-!
# Open bars

A bar that opens on a stack stays open, whatever is put above it (`openBars_append`), except for the one behind a
leading name. While a bar is open, an open choice in front of another bar is settled by the reduction, so that the
bar closes (`choose_eq_reduce`).
-/

namespace Formula.Bars

open LR (Action Tables)

/-- A stack that is not one leading name has the bar on it open. -/
theorem openBars_bar {stack : List Symbol} (h : stack.head? ≠ some .identifier) :
    0 < openBars (.bar :: stack) := by
  have hlast : ∀ {before : List Symbol}, 0 < (before ++ [Symbol.bar]).count .bar :=
    List.count_pos_iff.mpr (List.mem_append_right _ (List.mem_singleton_self _))
  unfold openBars
  rw [List.reverse_cons]
  cases hs : stack.reverse with
  | nil => exact @hlast []
  | cons y below =>
    cases below with
    | nil =>
      -- the only symbol below the bar is no name
      have hy : y ≠ .identifier := by
        rintro rfl
        rw [← List.reverse_reverse stack, hs] at h
        exact h rfl
      rw [List.singleton_append]
      split
      · rename_i he
        exact absurd (List.cons.inj he).1 hy
      · exact @hlast [y]
    | cons z below =>
      rw [List.cons_append, List.cons_append]
      split
      · rename_i he
        obtain rfl := (List.cons.inj (List.cons.inj he).2).2
        exact hlast
      · exact @hlast (y :: z :: below)

/-- Open bars stay open. -/
theorem openBars_cons {stack : List Symbol} (h : 0 < openBars stack) (x : Symbol) :
    0 < openBars (x :: stack) := by
  unfold openBars at h ⊢
  rw [List.reverse_cons]
  generalize stack.reverse = bottom at h ⊢
  have hmore : ∀ {rest : List Symbol}, 0 < rest.count .bar → 0 < (rest ++ [x]).count .bar := by
    intro rest hr
    rw [List.count_append]
    omega
  match bottom, h with
  | [], h => exact absurd h (by decide)
  | [y], h =>
    cases y <;> first | exact absurd h (by decide) | exact hmore h
  | y :: z :: rest, h =>
    rw [List.cons_append, List.cons_append]
    split at h
    · rename_i he
      obtain ⟨rfl, hz⟩ := List.cons.inj he
      obtain ⟨rfl, rfl⟩ := List.cons.inj hz
      exact hmore h
    · rename_i hne
      split
      · rename_i he
        obtain ⟨rfl, hz⟩ := List.cons.inj he
        obtain ⟨rfl, -⟩ := List.cons.inj hz
        exact absurd rfl (hne rest)
      · exact hmore h

theorem openBars_append {stack : List Symbol} (h : 0 < openBars stack) (above : List Symbol) :
    0 < openBars (above ++ stack) := by
  induction above with
  | nil => exact h
  | cons x above ih => exact openBars_cons ih x

/-- Above a parenthesis every bar is open. -/
theorem openBars_append_paren (row below : List Symbol) :
    openBars (row ++ .leftParen :: below) = openBars below + row.count .bar := by
  have hcount : ∀ bottom : List Symbol,
      (bottom ++ (.leftParen :: row.reverse)).count .bar = bottom.count .bar + row.count .bar := by
    intro bottom
    rw [List.count_append, List.count_cons_of_ne (by decide), List.count_reverse]
  unfold openBars
  rw [List.reverse_append, List.reverse_cons, List.append_assoc, List.singleton_append]
  match below.reverse with
  | [] => exact hcount []
  | [y] =>
    rw [List.singleton_append]
    cases y <;> exact hcount [_]
  | y :: z :: bottom =>
    rw [List.cons_append, List.cons_append]
    split
    · rename_i he
      cases he
      exact hcount bottom
    · rename_i hne
      split
      · rename_i he
        cases he
        exact absurd rfl (hne _)
      · exact hcount (y :: z :: bottom)

/-- Nothing is open on an empty stack. -/
theorem ne_nil_of_openBars {stack : List Symbol} (h : 0 < openBars stack) : stack ≠ [] := by
  rintro rfl
  exact absurd h (by decide)

/-- While a bar is open, the reduction is made in front of another bar. -/
theorem choose_eq_reduce {t : Tables} {number production : Nat} (hc : (t.choice number).2 = .reduce production)
    {stack : List Symbol} (ho : 0 < openBars stack) (above : List Symbol) (ha : above ≠ []) (input : List Symbol) :
    choose t number .bar (above ++ stack) input = .reduce production := by
  have hopen := openBars_append ho above
  have hlen : (above ++ stack).length ≠ 1 := by
    have hbelow := List.length_pos_iff.mpr (ne_nil_of_openBars ho)
    have habove := List.length_pos_iff.mpr ha
    rw [List.length_append]
    omega
  have hshifts : shifts t production (above ++ stack) input = false := by
    unfold shifts
    split
    · rfl
    · rw [if_neg]
      · rw [beq_eq_false_iff_ne]
        omega
      · rw [Bool.and_eq_true, beq_iff_eq]
        exact fun h => hlen h.2
  unfold choose
  split
  · rename_i action production' he
    rw [he] at hc
    cases hc
    rw [hshifts]
    rfl
  · rename_i hne he
    rw [he] at hc
    exact absurd hc (hne _)

/-- Between a name and something else, what counts is whether a bar is open. -/
theorem choose_bar {t : Tables} {number state production : Nat}
    (hc : t.choice number = (.shift state, .reduce production))
    (hname : (Rule.form? production).all (·.rule != .identifier) = true) (stack input : List Symbol) :
    choose t number .bar stack input =
      if (t.grammar.productionPrec? production).any (Rule.juxtapositionLevel ≤ ·.level) || openBars stack != 0 then
        .reduce production
      else .shift state := by
  have hany : (Rule.form? production).any (·.rule == .identifier) = false := by
    cases hf : Rule.form? production with
    | none => rfl
    | some f =>
      rw [hf] at hname
      simpa using hname
  have hshifts : shifts t production stack input =
      !((t.grammar.productionPrec? production).any (Rule.juxtapositionLevel ≤ ·.level) || openBars stack != 0) := by
    unfold shifts
    simp only [hany, Bool.false_and, Bool.false_eq_true, if_false]
    cases (t.grammar.productionPrec? production).any (Rule.juxtapositionLevel ≤ ·.level) <;> simp [bne]
  unfold choose
  simp only [hc, hshifts, Bool.not_not, beq_self_eq_true, Bool.true_and]

/-- Behind a lone name an open choice in front of a bar is settled by what is ahead, if the name does not bind as tight as
factors do. -/
theorem choose_name {t : Tables} {number production : Nat} {shift : Action}
    (hc : t.choice number = (shift, .reduce production))
    (hname : (Rule.form? production).any (·.rule == .identifier) = true)
    (hloose : (t.grammar.productionPrec? production).any (Rule.juxtapositionLevel ≤ ·.level) = false) (x : Symbol)
    (input : List Symbol) :
    choose t number .bar [x] input = if isIntervalAhead input then shift else .reduce production := by
  unfold choose shifts
  rw [hc]
  dsimp only
  rw [hloose, hname]
  cases isIntervalAhead input <;> rfl

/-- The name of a variable does not bind as tight as factors do. -/
theorem choose_identifier {number : Nat} {shift : Action}
    (hc : Rule.tables.choice number = (shift, .reduce Rule.identifier.index)) (x : Symbol) (input : List Symbol) :
    choose Rule.tables number .bar [x] input =
      if isIntervalAhead input then shift else .reduce Rule.identifier.index := by
  have hgrammar : Rule.tables.grammar = Rule.grammar := rfl
  refine choose_name hc (by decide) ?_ x input
  rw [hgrammar]
  decide

/-- An open choice is settled by one of its two sides. -/
theorem choose_eq (t : Tables) (number : Nat) (next : Symbol) (stack input : List Symbol) :
    choose t number next stack input = (t.choice number).1 ∨ choose t number next stack input = (t.choice number).2 := by
  unfold choose
  split
  · rename_i he
    rw [he]
    split
    · exact .inr rfl
    · exact .inl rfl
  · rename_i he
    rw [he]
    exact .inl rfl

end Formula.Bars
