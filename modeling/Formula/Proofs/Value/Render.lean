import Formula.Proofs.Value.Writable

/-!
# Values are read back from their texts

The text of a value is read at the level of the value, and the tree that is read means what the value is
(`prints_renderAt`). This is by induction on the fuel of the renderer, which the depth of the value bounds, with the
parts of a value in their places as what the induction carries (`PrintsParts`) and one lemma for each operation.
A product is read as what is built of its text: the factors of a row (`prints_factors`), what stands above the bar with
the sign (`prints_numerator`), and the fraction (`prints_fraction`).

So the text of a normal value of fractions and plain names is parsed, and what is parsed has the value's meaning
(`parse_render`).
-/

namespace Formula.Value

variable {s : Setting} {v w : Value} {fuel : Nat}

/-! ## Texts -/

theorem prints_child {M : Meaning} {least : Nat} (h : s.Prints v.level (v.renderAt fuel).toList M) (hv : v.Writable s)
    (hbare : least = 4 → v.Bare) (hl : least ≤ 4) : s.Prints (placeLevel least) (v.childAt fuel least).toList M := by
  unfold childAt
  split
  · have htext : (bracketed (v.renderAt fuel)).toList = '(' :: ((v.renderAt fuel).toList ++ [')']) := by
      rw [bracketed, String.toList_append, String.toList_append]
      rfl
    have hatom : placeLevel least ≤ Expr.atomLevel := (placeLevel_mono (Nat.le_refl 4) hl).trans (Nat.le_succ _)
    rw [htext]
    exact h.parentheses.mono hatom
  · rename_i hlt
    exact h.mono (placeLevel_le hv hbare hl (Nat.not_lt.mp hlt))

/-- The text of a sum, term by term. -/
theorem toList_renderAt_sum (fuel : Nat) (t : Value) (ts : List Value) :
    (renderAt (fuel + 1) (.sum (t :: ts))).toList =
      ts.foldl (fun front u => front ++ ([' '] ++ (u.termOperator.symbol.toList ++
        ([' '] ++ (u.subtracted.childAt fuel 2).toList)))) (t.childAt fuel 1).toList := by
  refine (List.foldl_hom String.toList fun front u => ?_).symm
  rw [termOperator, subtracted]
  cases u.negated? with
  | none =>
    show _ = (front ++ " + " ++ u.childAt fuel 2).toList
    rw [String.toList_append, String.toList_append, List.append_assoc]
    rfl
  | some w =>
    show _ = (front ++ " - " ++ w.childAt fuel 2).toList
    rw [String.toList_append, String.toList_append, List.append_assoc, if_pos (show (some w).isSome = true from rfl)]
    rfl

theorem toList_intercalate (t : String) (ts : List String) :
    ("*".intercalate (t :: ts)).toList = t.toList ++ ts.flatMap fun u => '*' :: u.toList := by
  rw [String.toList_intercalate]
  induction ts generalizing t with
  | nil => simp
  | cons u us ih =>
    rw [List.map_cons, List.map_cons, List.intercalate_cons_cons, ← List.map_cons, ih, List.flatMap_cons]
    simp

/-- Factors behind other factors. -/
theorem prints_factors {M : Meaning} {front : List Char} (h : s.Prints Rule.productLevel front M) {ws : List Value}
    (hws : ∀ w ∈ ws, s.Prints Rule.signLevel (w.childAt fuel 3).toList (w.shownAt fuel)) :
    s.Prints Rule.productLevel (front ++ ws.flatMap fun w => '*' :: (w.childAt fuel 3).toList) fun ρ q =>
      ∃ p qs, M ρ p ∧ List.Forall₂ (fun w q => w.shownAt fuel ρ q) ws qs ∧ p * qs.prod = q := by
  have hchain := Setting.Prints.chain (fun _ => .mul) isGap_nil (fun _ _ => rfl) hws h
  rw [List.flatMap, ← List.foldl_append_eq_append]
  refine hchain.imp ?_
  rintro ρ q ⟨p, qs, hp, hqs, hq⟩
  refine ⟨p, hp, ?_⟩
  rw [← hq]
  exact chain_factors hqs p

/-- A sign in front of a text changes the sign of what it means. -/
theorem prints_signed {M : Meaning} {text : List Char} (h : s.Prints Rule.signLevel text M) {sign : String}
    (hsign : sign = "" ∨ sign = "-") :
    s.Prints Rule.signLevel (sign.toList ++ text) fun ρ q => M ρ (signValue sign * q) := by
  rcases hsign with rfl | rfl
  · exact h.imp fun ρ q hq => by rwa [signValue, if_neg (by decide), one_mul] at hq
  · exact h.minus.imp fun ρ q hq => by rwa [signValue, if_pos rfl, neg_one_mul] at hq

/-- What stands above the fraction bar. -/
def numerator (above : List String) : String := if above = [] then "1" else "*".intercalate above

/-- What stands above the fraction bar with what stands below it. -/
def fraction (front : String) : List String → String
  | [] => front
  | [d] => front ++ "/" ++ d
  | ds => front ++ "/" ++ bracketed ("*".intercalate ds)

theorem renderAt_product (fuel : Nat) (fs : List Value) :
    renderAt (fuel + 1) (.product fs) =
      fraction ((splitSign fs).1 ++ numerator (((splitSign fs).2.filter (·.inverted?.isNone)).map (childAt fuel 3)))
        (((splitSign fs).2.filterMap inverted?).map (childAt fuel 3)) := by
  rfl

/-- What stands above the bar is read as the product of the factors there, and of nothing as one. -/
theorem prints_numerator (hs : s.limits = {}) {sign : String} (hsign : sign = "" ∨ sign = "-") {ws : List Value}
    (hws : ∀ w ∈ ws, s.Prints Rule.signLevel (w.childAt fuel 3).toList (w.shownAt fuel)) :
    s.Prints Rule.productLevel (sign ++ numerator (ws.map (childAt fuel 3))).toList fun ρ q =>
      ∃ qs, List.Forall₂ (fun w q => w.shownAt fuel ρ q) ws qs ∧ signValue sign * q = qs.prod := by
  rw [String.toList_append]
  cases ws with
  | nil =>
    have hone : s.Prints Rule.signLevel "1".toList fun _ q => ((1 : Nat) : ℚ) = q :=
      (Setting.Prints.nat hs 1).mono (by decide)
    refine ((prints_signed hone hsign).mono (by decide)).imp ?_
    rintro ρ q ⟨qs, hqs, hq⟩
    cases hqs
    rw [hq, List.prod_nil, Nat.cast_one]
  | cons w ws =>
    obtain ⟨hw, hws⟩ := List.forall_mem_cons.mp hws
    have hrow := prints_factors ((prints_signed hw hsign).mono (by decide)) hws
    have htext : (numerator ((w :: ws).map (childAt fuel 3))).toList =
        (w.childAt fuel 3).toList ++ ws.flatMap fun w => '*' :: (w.childAt fuel 3).toList := by
      rw [List.map_cons, numerator, if_neg (List.cons_ne_nil _ _), toList_intercalate, List.flatMap_map]
    rw [htext, ← List.append_assoc]
    refine hrow.imp ?_
    rintro ρ q ⟨qs, hqs, hq⟩
    cases hqs with
    | @cons _ r _ rs hr hrs =>
      rw [List.prod_cons] at hq
      refine ⟨signValue sign * r, rs, ?_, hrs, ?_⟩
      · rwa [← mul_assoc, signValue_mul_self, one_mul]
      · rw [mul_assoc, ← hq, ← mul_assoc, signValue_mul_self, one_mul]

/-- Several factors below the bar are read as their product, in brackets. -/
theorem prints_denominator {w : Value} {ws : List Value}
    (hws : ∀ u ∈ w :: ws, s.Prints Rule.signLevel (u.childAt fuel 3).toList (u.shownAt fuel)) :
    s.Prints Rule.signLevel (bracketed ("*".intercalate ((w :: ws).map (childAt fuel 3)))).toList fun ρ q =>
      ∃ qs, List.Forall₂ (fun w q => w.shownAt fuel ρ q) (w :: ws) qs ∧ qs.prod = q := by
  obtain ⟨hw, hws⟩ := List.forall_mem_cons.mp hws
  have hrow := prints_factors (hw.mono (by decide)) hws
  have htext : (bracketed ("*".intercalate ((w :: ws).map (childAt fuel 3)))).toList =
      '(' :: ((w.childAt fuel 3).toList ++ (ws.flatMap fun w => '*' :: (w.childAt fuel 3).toList) ++ [')']) := by
    rw [bracketed, String.toList_append, String.toList_append, List.map_cons, toList_intercalate, List.flatMap_map]
    rfl
  rw [htext]
  refine (hrow.parentheses.mono (by decide)).imp ?_
  rintro ρ q ⟨qs, hqs, hq⟩
  cases hqs with
  | @cons _ r _ rs hr hrs => exact ⟨r, rs, hr, hrs, hq ▸ (List.prod_cons).symm⟩

/-- A product is read as the quotient of what stands above the bar and what stands below it. -/
theorem prints_fraction {front : String} {M : Meaning} (h : s.Prints Rule.productLevel front.toList M) {ws : List Value}
    (hws : ∀ w ∈ ws, s.Prints Rule.signLevel (w.childAt fuel 3).toList (w.shownAt fuel)) :
    s.Prints Rule.productLevel (fraction front (ws.map (childAt fuel 3))).toList fun ρ q =>
      ∃ p qs, M ρ p ∧ List.Forall₂ (fun w q => w.shownAt fuel ρ q) ws qs ∧ qs.prod ≠ 0 ∧ p / qs.prod = q := by
  have hover {text : List Char} {N : Meaning} (hbelow : s.Prints Rule.signLevel text N) :
      s.Prints Rule.productLevel (front.toList ++ '/' :: text) fun ρ q =>
        ∃ p r, M ρ p ∧ N ρ r ∧ r ≠ 0 ∧ p / r = q := by
    have hbinary : s.Prints Operator.div.level _ _ := Setting.Prints.binary isGap_nil h hbelow
    refine hbinary.imp ?_
    rintro ρ q ⟨p, r, hp, hr, hne, hq⟩
    refine ⟨p, r, hp, hr, ?_⟩
    rw [Operator.rational?, Exact.quotient?, if_neg hne, hq]
  rcases ws with _ | ⟨w, _ | ⟨w', ws⟩⟩
  · refine h.imp ?_
    rintro ρ q ⟨p, qs, hp, hqs, -, hq⟩
    cases hqs
    rw [List.prod_nil, div_one] at hq
    exact hq ▸ hp
  · rw [List.map_singleton, fraction, String.toList_append, String.toList_append, List.append_assoc]
    refine (hover (hws w List.mem_cons_self)).imp ?_
    rintro ρ q ⟨p, qs, hp, hqs, hne, hq⟩
    obtain ⟨r, rfl⟩ := List.length_eq_one_iff.mp hqs.length_eq.symm
    cases hqs with
    | cons hr _ => exact ⟨p, r, hp, hr, by simpa using hne, by simpa using hq⟩
  · have htext : fraction front ((w :: w' :: ws).map (childAt fuel 3)) =
        front ++ "/" ++ bracketed ("*".intercalate ((w :: w' :: ws).map (childAt fuel 3))) := rfl
    rw [htext, String.toList_append, String.toList_append, List.append_assoc]
    refine (hover (prints_denominator hws)).imp ?_
    rintro ρ q ⟨p, qs, hp, hqs, hne, hq⟩
    exact ⟨p, qs.prod, hp, ⟨qs, hqs, rfl⟩, hne, hq⟩

/-! ## Values -/

/-- The parts of a value that are no deeper than `fuel` are read at the level of their place, unless it is that of an
operand of a power or a factorial. -/
def PrintsParts (s : Setting) (fuel : Nat) : Prop :=
  ∀ least ≤ 3, ∀ w : Value, w.Writable s → w.depth ≤ fuel →
    s.Prints (placeLevel least) (w.childAt fuel least).toList (w.shownAt fuel)

theorem prints_sum (hparts : PrintsParts s fuel) {t : Value} {ts : List Value} (h : ∀ u ∈ t :: ts, u.Writable s)
    (hd : ∀ u ∈ t :: ts, u.depth ≤ fuel) :
    s.Prints Rule.sumLevel (renderAt (fuel + 1) (.sum (t :: ts))).toList (shownAt (fuel + 1) (.sum (t :: ts))) := by
  obtain ⟨ht, hts⟩ := List.forall_mem_cons.mp h
  obtain ⟨hdt, hdts⟩ := List.forall_mem_cons.mp hd
  have hfirst : s.Prints Rule.sumLevel (t.childAt fuel 1).toList (t.shownAt fuel) :=
    hparts 1 (by decide) t ht hdt
  have hterm : ∀ u ∈ ts, s.Prints (Rule.sumLevel + 1) (u.subtracted.childAt fuel 2).toList
      (u.subtracted.shownAt fuel) := by
    intro u hu
    rw [subtracted]
    cases hw : u.negated? with
    | none => exact hparts 2 (by decide) u (hts u hu) (hdts u hu)
    | some w => exact hparts 2 (by decide) w ((hts u hu).negated hw) ((depth_of_negated? hw).trans (hdts u hu))
  have hlevel : ∀ u ∈ ts, (termOperator u).level = Rule.sumLevel := by
    intro u _
    unfold termOperator
    split <;> rfl
  rw [toList_renderAt_sum]
  refine (Setting.Prints.chain termOperator isGap_space hlevel hterm hfirst).imp ?_
  rintro ρ q ⟨hm, hq⟩
  obtain ⟨hmt, hmts⟩ := hm.append
  obtain ⟨qs, hqs, rfl⟩ := reads_sum.mp hq
  cases hqs with
  | @cons _ p _ ps hp hps =>
    rw [List.sum_cons]
    exact ⟨p, ⟨hmt, hp⟩, chain_terms hps hmts p⟩

theorem prints_product (hs : s.limits = {}) (hparts : PrintsParts s fuel) {fs : List Value}
    (h : ∀ f ∈ fs, f.Writable s) (hd : ∀ f ∈ fs, f.depth ≤ fuel) :
    s.Prints Rule.productLevel (renderAt (fuel + 1) (.product fs)).toList (shownAt (fuel + 1) (.product fs)) := by
  have habove : ∀ w ∈ (splitSign fs).2.filter (·.inverted?.isNone),
      s.Prints Rule.signLevel (w.childAt fuel 3).toList (w.shownAt fuel) := by
    intro w hw
    have hmem := mem_of_splitSign (List.mem_of_mem_filter hw)
    exact hparts 3 (Nat.le_refl 3) w (h w hmem) (hd w hmem)
  have hbelow : ∀ w ∈ (splitSign fs).2.filterMap inverted?,
      s.Prints Rule.signLevel (w.childAt fuel 3).toList (w.shownAt fuel) := by
    intro w hw
    obtain ⟨f, hf, hw⟩ := List.mem_filterMap.mp hw
    have hmem := mem_of_splitSign hf
    exact hparts 3 (Nat.le_refl 3) w ((h f hmem).inverted hw) ((depth_of_inverted? hw).trans (hd f hmem))
  rw [renderAt_product]
  refine (prints_fraction (prints_numerator hs (splitSign_sign fs) habove) hbelow).imp ?_
  rintro ρ q ⟨hm, hq⟩
  obtain ⟨qs, hqs, rfl⟩ := reads_product.mp hq
  obtain ⟨rs, hrs, hprod⟩ := reads_splitSign hqs
  obtain ⟨as, bs, has, hbs, hne, hquotient⟩ := reads_quotient hrs hm
  refine ⟨signValue (splitSign fs).1 * as.prod, bs, ⟨as, has, ?_⟩, hbs, hne, ?_⟩
  · rw [← mul_assoc, signValue_mul_self, one_mul]
  · rw [hprod, hquotient, mul_div_assoc]

theorem prints_power (hs : s.limits = {}) (hv : s.Prints Rule.factorialLevel (v.childAt fuel 4).toList (v.shownAt fuel))
    (hw : s.Prints Rule.factorialLevel (w.childAt fuel 4).toList (w.shownAt fuel)) :
    s.Prints Rule.powerLevel (renderAt (fuel + 1) (.power v w)).toList (shownAt (fuel + 1) (.power v w)) := by
  have htext : (renderAt (fuel + 1) (.power v w)).toList =
      (v.childAt fuel 4).toList ++ '^' :: (w.childAt fuel 4).toList := by
    show (v.childAt fuel 4 ++ "^" ++ w.childAt fuel 4).toList = _
    rw [String.toList_append, String.toList_append, List.append_assoc]
    rfl
  rw [htext]
  refine (hv.power hs (hw.mono (Nat.le_succ _))).imp ?_
  rintro ρ q ⟨hm, hq⟩
  obtain ⟨p, r, hp, hr, hq⟩ := reads_power hq
  obtain ⟨hmv, hmw⟩ := hm.append
  exact ⟨p, r, ⟨hmv, hp⟩, ⟨hmw, hr⟩, hq⟩

theorem prints_factorial (hs : s.limits = {})
    (hv : s.Prints Rule.factorialLevel (v.childAt fuel 4).toList (v.shownAt fuel)) :
    s.Prints Rule.factorialLevel (renderAt (fuel + 1) (.factorial v)).toList (shownAt (fuel + 1) (.factorial v)) := by
  have htext : (renderAt (fuel + 1) (.factorial v)).toList = (v.childAt fuel 4).toList ++ ['!'] := by
    show (v.childAt fuel 4 ++ "!").toList = _
    rw [String.toList_append]
    rfl
  rw [htext]
  refine (hv.factorial hs).imp ?_
  rintro ρ q ⟨hm, hq⟩
  obtain ⟨p, hp, hq⟩ := reads_factorial hq
  exact ⟨p, ⟨hm, hp⟩, hq⟩

theorem prints_absolute {level : Nat} (hv : s.Prints level (v.renderAt fuel).toList (v.shownAt fuel)) :
    s.Prints Rule.factorialLevel (renderAt (fuel + 1) (.absolute v)).toList (shownAt (fuel + 1) (.absolute v)) := by
  have htext : (renderAt (fuel + 1) (.absolute v)).toList = '|' :: ((v.renderAt fuel).toList ++ ['|']) := by
    show ("|" ++ v.renderAt fuel ++ "|").toList = _
    rw [String.toList_append, String.toList_append]
    rfl
  rw [htext]
  refine (hv.bars.mono (Nat.le_succ _)).imp ?_
  rintro ρ q ⟨hm, hq⟩
  obtain ⟨p, hp, hq⟩ := reads_absolute hq
  exact ⟨p, ⟨hm, hp⟩, hq⟩

/-- What is written of a value is read at its level, and means what the value does. -/
theorem prints_renderAt (hs : s.limits = {}) (hv : v.Writable s) (hd : v.depth ≤ fuel) :
    s.Prints v.level (v.renderAt fuel).toList (v.shownAt fuel) := by
  induction fuel generalizing v with
  | zero => exact absurd hd (Nat.not_le.mpr v.depth_pos)
  | succ fuel ih =>
    have hparts : PrintsParts s fuel := fun least hl w hw hd =>
      prints_child (ih hw hd) hw (fun h4 => absurd h4 (by omega)) (by omega)
    have hoperand {w : Value} (hw : w.Writable s) (hd : w.depth ≤ fuel) (hbare : w.Bare) :
        s.Prints Rule.factorialLevel (w.childAt fuel 4).toList (w.shownAt fuel) :=
      prints_child (ih hw hd) hw (fun _ => hbare) (Nat.le_refl 4)
    have hword {u : Value} (word : String) (hw : IsWord word) (hu : ∀ ρ, u.rational? ρ = none) :
        s.Prints Rule.factorialLevel word.toList (u.shownAt (fuel + 1)) :=
      ((Setting.Prints.word hw).mono (by decide)).imp fun ρ q hq => nomatch (hu ρ).symm.trans hq.2.1
    cases hv with
    | number n => exact (Setting.prints_number hs n).imp fun _ _ hq => reads_number.mp hq.2
    | bool b =>
      cases b
      · exact hword "False" (by decide) fun _ => rfl
      · exact hword "True" (by decide) fun _ => rfl
    | constant c => exact hword c.name (by cases c <;> decide) fun _ => rfl
    | symbol h => exact ((Setting.Prints.name h).mono (Nat.le_succ _)).imp fun _ _ hq => Option.some.inj hq.2.1
    | sum h =>
      have hd := listDepth_le_iff.mp (Nat.le_of_succ_le_succ hd)
      exact prints_sum hparts h hd
    | product h =>
      have hd := listDepth_le_iff.mp (Nat.le_of_succ_le_succ hd)
      exact prints_product hs hparts h hd
    | power ha hb ha' hb' =>
      have hd := max_le_iff.mp (Nat.le_of_succ_le_succ hd)
      exact prints_power hs (hoperand ha hd.1 ha') (hoperand hb hd.2 hb')
    | factorial ha ha' => exact prints_factorial hs (hoperand ha (Nat.le_of_succ_le_succ hd) ha')
    | absolute ha => exact prints_absolute (ih ha (Nat.le_of_succ_le_succ hd))

/-! ## Reading back -/

/-- Fractions and names that are read as themselves, under the arithmetic operations. -/
inductive Plain (s : Setting) : Value → Prop where
  | number {n : Number} (hn : n.isExact = true) : Plain s (.number n)
  | symbol {name : String} (h : s.Resolves name) : Plain s (.symbol name)
  | sum {ts : List Value} (h : ∀ t ∈ ts, Plain s t) : Plain s (.sum ts)
  | product {fs : List Value} (h : ∀ f ∈ fs, Plain s f) : Plain s (.product fs)
  | power {a b : Value} (ha : Plain s a) (hb : Plain s b) : Plain s (.power a b)
  | factorial {a : Value} (ha : Plain s a) : Plain s (.factorial a)
  | absolute {a : Value} (ha : Plain s a) : Plain s (.absolute a)

namespace Plain

theorem bare (h : v.Plain s) (hv : v.Normal) : v.Bare := by
  rintro n rfl
  cases h with
  | number hn =>
    cases n with
    | real x => cases hn
    | ratio => exact ⟨hv.node, trivial⟩

theorem writable (h : v.Plain s) (hv : v.Normal) : v.Writable s := by
  induction h with
  | number => exact .number _
  | symbol h => exact .symbol h
  | @sum ts _ ih =>
    have hts : ∀ t ∈ ts, t.Writable s := fun t ht => ih t ht (hv.part ht)
    cases ts with
    | nil => exact absurd hv.node.two_le (by decide)
    | cons t ts => exact .sum hts
  | product _ ih => exact .product fun f hf => ih f hf (hv.part hf)
  | power ha hb iha ihb =>
    have hva := hv.first rfl
    have hvb := hv.second rfl
    exact .power (iha hva) (ihb hvb) (ha.bare hva) (hb.bare hvb)
  | factorial ha ih => exact .factorial (ih (hv.first rfl)) (ha.bare (hv.first rfl))
  | absolute _ ih => exact .absolute (ih (hv.first rfl))

theorem lowest (h : v.Plain s) (hv : v.Normal) : v.Lowest := by
  have hall {vs : List Value} (hvs : ∀ w ∈ vs, w.Lowest) : AllLowest vs := by
    induction vs with
    | nil => trivial
    | cons w ws ih => exact ⟨hvs w List.mem_cons_self, ih fun u hu => hvs u (List.mem_cons_of_mem w hu)⟩
  induction h with
  | @number n hn =>
    cases n with
    | real x => cases hn
    | ratio => exact ⟨_, Number.is_of_normal hv.node⟩
  | symbol => trivial
  | sum _ ih => exact hall fun t ht => ih t ht (hv.part ht)
  | product _ ih => exact hall fun f hf => ih f hf (hv.part hf)
  | power _ _ iha ihb => exact ⟨iha (hv.first rfl), ihb (hv.second rfl)⟩
  | factorial _ ih => exact ih (hv.first rfl)
  | absolute _ ih => exact ih (hv.first rfl)

end Plain

/-- The numbers that are computed to write a value put together by arithmetic operations. -/
def printed (v : Value) : List Number := v.printedAt (v.depth + 1)

/-- A normal value of fractions and plain names is read back from its text, and the tree that is read has a value. If no
number is a double that is computed to write the value or that is read, the tree means what the value is, wherever that
is defined; and if none is that is computed to evaluate the tree, so does its value. -/
theorem parse_render {catalog : Catalog} (hv : v.Normal) (hp : v.Plain { catalog }) :
    ∃ e w, (Setting.parse { catalog } .equation v.render).result = .ok e ∧ e.evaluate = .ok w ∧
      (AllExact v.printed → AllExact e.literals → ∀ ρ q, v.rational? ρ = some q →
        e.rational? ρ = some q ∧ (AllExact e.made → w.rational? ρ = some q)) := by
  obtain ⟨e, hread, hmeans⟩ := prints_renderAt rfl (hp.writable hv) (Nat.le_succ v.depth)
  obtain ⟨w, hw⟩ := hread.total.exists_value
  refine ⟨e, w, hread.parse_eq, hw, fun hprinted hliterals ρ q hq => ?_⟩
  have h := hmeans hliterals ρ q ⟨hprinted, hq, hp.lowest hv⟩
  refine ⟨h.value, fun hmade => ?_⟩
  obtain ⟨w', hw', hreads⟩ := Expr.evaluate_reads h.arithmetic h.value hmade
  rw [Except.ok.inj (hw.symm.trans hw')]
  exact hreads.1

/-- The value of `-x * y^(-2) - (3/2)*|x|!`. -/
def fractions : Value :=
  .sum [.product [.number .minusOne, .symbol "x", .power (.symbol "y") (.int (-2))],
    .product [.number (.ratio (-3) 2), .factorial (.absolute (.symbol "x"))]]

theorem normal_fractions : fractions.Normal := by
  have hvalue : fractions = sub (mul (neg (.symbol "x")) (pow (.symbol "y") (.int (-2))))
      (mul (.number (.ratio 3 2)) (fact (abs (.symbol "x")))) := rfl
  have hx := Normal.symbol "x"
  have hy := Normal.symbol "y"
  have hhalves : (Number.ratio 3 2).Normal := by simp only [Number.Normal]; decide
  rw [hvalue]
  exact (hx.neg.mul (hy.pow (.int (by decide)))).sub ((Normal.number hhalves).mul hx.abs.fact)

theorem fractions_plain {s : Setting} (hx : s.Resolves "x") (hy : s.Resolves "y") : fractions.Plain s := by
  refine .sum (List.forall_mem_cons.mpr ⟨.product ?_, List.forall_mem_singleton.mpr (.product ?_)⟩)
  · exact List.forall_mem_cons.mpr ⟨.number rfl, List.forall_mem_cons.mpr
      ⟨.symbol hx, List.forall_mem_singleton.mpr (.power (.symbol hy) (.number rfl))⟩⟩
  · exact List.forall_mem_cons.mpr ⟨.number rfl, List.forall_mem_singleton.mpr (.factorial (.absolute (.symbol hx)))⟩

/-- The tree that its text is read as. -/
def fractionsRead : Expr :=
  .binary .sub (.binary .div (.neg (.variable "x")) (.power (.variable "y") (.number "2" (.ofInt 2)) (1 / 0)))
    (.binary .mul (.binary .div (.number "3" (.ofInt 3)) (.number "2" (.ofInt 2)))
      (.factorial (.absolute (.variable "x")) (1 / 0)))

theorem reads_fractions {s : Setting} (hs : s.limits = {}) (hx : s.Resolves "x") (hy : s.Resolves "y") :
    s.ReadsText Rule.sumLevel "-x/y^2 - (3/2)*|x|!".toList fractionsRead := by
  have hx : s.ReadsText Expr.atomLevel "x".toList (.variable "x") := .name hx
  have hy : s.ReadsText Expr.atomLevel "y".toList (.variable "y") := .name hy
  have h2 : s.ReadsText Expr.atomLevel "2".toList (.number "2" (.ofInt 2)) := .number hs (by decide) rfl
  have h3 : s.ReadsText Expr.atomLevel "3".toList (.number "3" (.ofInt 3)) := .number hs (by decide) rfl
  have hminus := (hx.mono (by decide : Rule.signLevel ≤ _)).minus
  have hpower := Setting.ReadsText.power hs (hy.mono (by decide)) (h2.mono (by decide))
  have hquotient : s.ReadsText Operator.div.level _ _ :=
    .binary isGap_nil (hminus.mono (by decide)) (hpower.mono (by decide))
  have hhalves : s.ReadsText Operator.div.level _ _ :=
    .binary isGap_nil (h3.mono (by decide)) (h2.mono (by decide))
  have hfactorial := Setting.ReadsText.factorial hs (hx.bars.mono (by decide))
  have hproduct : s.ReadsText Operator.mul.level _ _ :=
    .binary isGap_nil (hhalves.parentheses.mono (by decide)) (hfactorial.mono (by decide))
  have hdifference : s.ReadsText Operator.sub.level _ _ :=
    .binary isGap_space (hquotient.mono (by decide)) (hproduct.mono (by decide))
  exact hdifference

/-- It is written with signs and fraction bars, and at `x = 2` and `y = 3` it is -29/9, as is what is read. -/
theorem parse_render_fractions :
    fractions.render = "-x/y^2 - (3/2)*|x|!" ∧
      fractions.rational? (fun name => if name = "x" then 2 else 3) = some (-29 / 9) ∧
      ∃ e w, (Setting.parse { catalog := .builtin } .equation fractions.render).result = .ok e ∧ e.evaluate = .ok w ∧
        w.rational? (fun name => if name = "x" then 2 else 3) = some (-29 / 9) := by
  have hx : Setting.Resolves { catalog := .builtin } "x" := .word (by decide) rfl
  have hy : Setting.Resolves { catalog := .builtin } "y" := .word (by decide) rfl
  have htext : fractions.render = "-x/y^2 - (3/2)*|x|!" := by decide +kernel
  have hvalue : fractions.rational? (fun name => if name = "x" then 2 else 3) = some (-29 / 9) := by decide +kernel
  obtain ⟨e, w, hparse, hevaluate, hmeans⟩ := parse_render normal_fractions (fractions_plain hx hy)
  refine ⟨htext, hvalue, e, w, hparse, hevaluate, ?_⟩
  obtain rfl : e = fractionsRead := by
    rw [htext, (reads_fractions rfl hx hy).parse_eq] at hparse
    exact (Except.ok.inj hparse).symm
  exact (hmeans (by decide +kernel) (by decide +kernel) _ _ hvalue).2 (by decide +kernel)

end Formula.Value
