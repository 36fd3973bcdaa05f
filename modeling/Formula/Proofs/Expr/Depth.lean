import Formula.Proofs.Expr.Turns

/-!
# The depth of brackets

A bar behind a leading name stands between a set and an interval if the rest of the text is one pair of brackets with a
comma directly inside. What is read as one thing closes the brackets that it opens, and its commas are inside of them
(`Setting.depth_of_run`). It therefore makes no difference to that rule what stands between two parentheses
(`Bars.isIntervalAhead_enclosed`).
-/

namespace Formula

namespace Bars

/-- The depth at which a row ends that starts at a depth. There is none for a row that closes brackets of outside, or
has commas there. -/
def depth : Nat → List Symbol → Option Nat
  | k, [] => some k
  | k, x :: row =>
    if isOpening x then depth (k + 1) row
    else if isClosing x then if k = 0 then none else depth (k - 1) row
    else if k = 0 ∧ (x = .comma ∨ x = .arguments) then none
    else depth k row

theorem depth_append (k : Nat) (row row' : List Symbol) :
    depth k (row ++ row') = (depth k row).bind (depth · row') := by
  induction row generalizing k with
  | nil => rfl
  | cons x row ih =>
    rw [List.cons_append, depth, depth]
    split
    · exact ih _
    · split
      · split
        · rfl
        · exact ih _
      · split
        · rfl
        · exact ih _

/-- Inside of more brackets a row ends as much deeper. -/
theorem depth_add {k j : Nat} {row : List Symbol} (h : depth k row = some j) (i : Nat) :
    depth (k + i) row = some (j + i) := by
  induction row generalizing k with
  | nil =>
    obtain rfl := Option.some.inj h
    rfl
  | cons x row ih =>
    rw [depth] at h ⊢
    split at h
    · rename_i hx
      have := ih h
      rw [Nat.add_right_comm] at this
      rwa [if_pos hx]
    · rename_i hx
      rw [if_neg hx]
      split at h
      · rename_i hx
        rw [if_pos hx]
        split at h
        · cases h
        · have := ih h
          rw [← Nat.sub_add_comm (by omega)] at this
          rwa [if_neg (by omega)]
      · rename_i hx
        rw [if_neg hx]
        split at h
        · cases h
        · rename_i hk
          rw [if_neg fun hk' => hk ⟨by omega, hk'.2⟩]
          exact ih h

/-! ## Derivations -/

theorem depth_rhs : ∀ f ∈ Rule.table, let k := if f.lhs = .arguments then 1 else 0
    depth k f.rhs = some k ∧ isOpening f.lhs = false ∧ isClosing f.lhs = false ∧ f.lhs ≠ .comma := by
  decide

/-- A phrase ends at the depth where its symbol does. -/
theorem depth_replace {f : Rule.Form} (hf : f ∈ Rule.table) {k j : Nat} {row : List Symbol}
    (h : depth k (f.lhs :: row) = some j) : depth k (f.rhs ++ row) = some j := by
  obtain ⟨hrhs, hopening, hclosing, hcomma⟩ := depth_rhs f hf
  rw [depth, if_neg (by simp [hopening]), if_neg (by simp [hclosing])] at h
  split at h
  · cases h
  · rename_i hk
    have hdepth : depth k f.rhs = some k := by
      split at hrhs
      · rename_i harguments
        have hpos : k ≠ 0 := fun h0 => hk ⟨h0, .inr harguments⟩
        have := depth_add hrhs (k - 1)
        rwa [show 1 + (k - 1) = k by omega] at this
      · have := depth_add hrhs k
        rwa [Nat.zero_add] at this
    rw [depth_append, hdepth]
    exact h

/-- A row ends at the depth of what it is derived from. -/
theorem depth_of_derives {row word : List Nat} (h : Rule.grammar.Derives row word) {symbols : List Symbol}
    (hs : symbols.map Symbol.index = row) {k j : Nat} (hd : depth k symbols = some j) :
    ∃ symbols', symbols'.map Symbol.index = word ∧ depth k symbols' = some j := by
  induction h using Relation.ReflTransGen.head_induction_on generalizing symbols with
  | refl => exact ⟨symbols, hs, hd⟩
  | head hp _ ih =>
    obtain ⟨hp, before, after⟩ := hp
    obtain ⟨number, hnumber⟩ := List.mem_iff_getElem?.mp hp
    obtain ⟨f, hf, rfl⟩ := Rule.exists_form hnumber
    obtain ⟨front, back, rfl, rfl, hback⟩ := List.map_eq_append_iff.mp hs
    obtain ⟨x, back, rfl, hx, rfl⟩ := List.map_eq_cons_iff.mp hback
    obtain rfl := Symbol.index_injective hx
    have hrow : (front ++ f.rhs ++ back).map Symbol.index =
        front.map Symbol.index ++ f.rhs.map Symbol.index ++ back.map Symbol.index := by
      rw [List.map_append, List.map_append]
    refine ih hrow ?_
    rw [depth_append] at hd
    obtain ⟨i, hi, hd⟩ := Option.bind_eq_some_iff.mp hd
    rw [List.append_assoc, depth_append, hi]
    exact depth_replace (List.mem_of_getElem? hf) hd

/-! ## The rest of the input -/

/-- What ends at the depth where it starts is passed over. -/
theorem closesAtEnd_append {row : List Symbol} {k j : Nat} (h : depth k row = some j) {d : Nat} (hd : 0 < d)
    (comma : Bool) (rest : List Symbol) : closesAtEnd (d + k) comma (row ++ rest) = closesAtEnd (d + j) comma rest := by
  induction row generalizing k with
  | nil =>
    obtain rfl := Option.some.inj h
    rfl
  | cons x row ih =>
    rw [List.cons_append, closesAtEnd]
    rw [depth] at h
    split at h
    · rename_i hx
      rw [if_pos hx, Nat.add_assoc]
      exact ih h
    · rename_i hx
      rw [if_neg hx]
      split at h
      · rename_i hx
        rw [if_pos hx]
        split at h
        · cases h
        · rw [if_neg (by omega), Nat.add_sub_assoc (by omega)]
          exact ih h
      · rename_i hx
        rw [if_neg hx]
        split at h
        · cases h
        · rename_i hk
          have hcomma : (x == .comma && d + k == 1) = false := by
            rw [Bool.and_eq_false_imp]
            intro hx
            have : k ≠ 0 := fun h0 => hk ⟨h0, .inl (beq_iff_eq.mp hx)⟩
            rw [beq_eq_false_iff_ne]
            omega
          rw [hcomma, Bool.or_false]
          exact ih h

section

variable {row row' : List Symbol} (h : depth 0 row = some 0) (h' : depth 0 row' = some 0) (rest : List Symbol)

include h h'

theorem closesAtEnd_enclosed (front : List Symbol) (d : Nat) (comma : Bool) :
    closesAtEnd d comma (front ++ .leftParen :: (row ++ rest)) =
      closesAtEnd d comma (front ++ .leftParen :: (row' ++ rest)) := by
  induction front generalizing d comma with
  | nil =>
    rw [List.nil_append, List.nil_append, closesAtEnd, closesAtEnd, if_pos (by rfl), if_pos (by rfl)]
    exact (closesAtEnd_append h (Nat.succ_pos d) comma rest).trans (closesAtEnd_append h' (Nat.succ_pos d) comma rest).symm
  | cons x front ih =>
    have hhead : (front ++ .leftParen :: (row ++ rest)).head? = (front ++ .leftParen :: (row' ++ rest)).head? := by
      cases front <;> rfl
    rw [List.cons_append, List.cons_append, closesAtEnd, closesAtEnd, hhead, ih, ih, ih]

/-- What stands between two parentheses makes no difference to whether the input is an interval. -/
theorem isIntervalAhead_enclosed (front : List Symbol) :
    isIntervalAhead (front ++ .leftParen :: (row ++ rest)) =
      isIntervalAhead (front ++ .leftParen :: (row' ++ rest)) := by
  cases front with
  | nil =>
    have := (closesAtEnd_append h Nat.one_pos false rest).trans (closesAtEnd_append h' Nat.one_pos false rest).symm
    exact congrArg ((Symbol.leftParen == .leftBracket || Symbol.leftParen == .leftParen) && ·) this
  | cons x front =>
    exact congrArg ((x == .leftBracket || x == .leftParen) && ·) (closesAtEnd_enclosed h h' rest front 1 false)

end

/-! ## Intervals -/

theorem depth_of_yields {x : Symbol} (hx : depth 0 [x] = some 0) {word : List Nat}
    (h : Rule.grammar.Yields [x.index] word) : ∃ symbols : List Symbol, symbols.map Symbol.index = word ∧
      depth 0 symbols = some 0 :=
  depth_of_derives h.derives (show [x].map Symbol.index = [x.index] from rfl) hx

theorem interval_rhs : ∀ f ∈ Rule.table, f.lhs = .interval → ∃ a ∈ [Symbol.leftBracket, .leftParen],
    ∃ b ∈ [Symbol.rightBracket, .rightParen], f.rhs = [a, .expression, .comma, .expression, b] := by
  decide

theorem bracket_opens : ∀ a ∈ [Symbol.leftBracket, .leftParen],
    Rule.grammar.IsTerminal a.index ∧ (a == .leftBracket || a == .leftParen) = true := by
  decide

theorem bracket_closes : ∀ b ∈ [Symbol.rightBracket, .rightParen],
    Rule.grammar.IsTerminal b.index ∧ isOpening b = false ∧ isClosing b = true := by
  decide

/-- What is read as an interval is one pair of brackets with a comma directly inside. -/
theorem isIntervalAhead_of_yields {f : Rule.Form} (hf : f ∈ Rule.table) (hlhs : f.lhs = .interval)
    {symbols : List Symbol} (h : Rule.grammar.Yields (f.rhs.map Symbol.index) (symbols.map Symbol.index)) :
    isIntervalAhead (symbols ++ [.finish]) = true := by
  obtain ⟨a, ha, b, hb, hrhs⟩ := interval_rhs f hf hlhs
  obtain ⟨hleft, hbracket⟩ := bracket_opens a ha
  obtain ⟨hright, hopening, hclosing⟩ := bracket_closes b hb
  have hc := Rule.augmented.checked
  rw [hrhs] at h
  -- the brackets, the comma and the two ends
  obtain ⟨_, hword, hinner⟩ := h.of_terminal hc hleft
  obtain ⟨lower, _, rfl, hlower, hcomma⟩ := LR.Grammar.Yields.split (r := [Symbol.expression.index]) hinner
  obtain ⟨_, rfl, hsecond⟩ := hcomma.of_terminal hc (by decide)
  obtain ⟨upper, _, rfl, hupper, hlast⟩ := LR.Grammar.Yields.split (r := [Symbol.expression.index]) hsecond
  obtain ⟨_, rfl, hnil⟩ := hlast.of_terminal hc hright
  cases hnil
  obtain ⟨lower, rfl, hdepth⟩ := depth_of_yields (by decide) hlower
  obtain ⟨upper, rfl, hdepth'⟩ := depth_of_yields (by decide) hupper
  obtain rfl : symbols = a :: (lower ++ .comma :: (upper ++ [b])) := by
    refine Symbol.map_index_injective ?_
    rw [hword]
    simp
  calc isIntervalAhead (a :: (lower ++ .comma :: (upper ++ [b])) ++ [.finish])
      = closesAtEnd 1 false (lower ++ .comma :: (upper ++ [b, .finish])) := by
        rw [List.cons_append, isIntervalAhead, hbracket, Bool.true_and]
        simp
    _ = closesAtEnd 1 false (.comma :: (upper ++ [b, .finish])) := closesAtEnd_append hdepth Nat.one_pos false _
    _ = closesAtEnd 1 true (upper ++ [b, .finish]) := rfl
    _ = closesAtEnd 1 true [b, .finish] := closesAtEnd_append hdepth' Nat.one_pos true _
    _ = true := by
        rw [closesAtEnd, hopening, hclosing]
        rfl

end Bars

/-- What is read as one thing is at one depth. -/
theorem Setting.depth_of_run {s : Setting} {goal : Goal} {words : List Token} (hwords : ∀ t ∈ words, t.symbol ≠ .finish)
    {position : Text.Position} {names : List String} {token : Token}
    (h : (s.run goal (words ++ [.finish position]) names).result = .ok token) (htoken : token.symbol = .equation) :
    Bars.depth 0 (words.map (·.symbol)) = some 0 := by
  obtain ⟨numbers, hright⟩ := exists_derivation hwords h
  have hrow : [token.symbol].map Symbol.index = [token.symbol.index] := rfl
  have hstart : Bars.depth 0 [token.symbol] = some 0 := by
    rw [htoken]
    rfl
  obtain ⟨symbols, hsymbols, hdepth⟩ := Bars.depth_of_derives hright.derives hrow hstart
  obtain rfl : symbols = words.map (·.symbol) := by
    refine Symbol.map_index_injective ?_
    rw [hsymbols, List.map_map]
    rfl
  exact hdepth

end Formula
