import Formula.Proofs.Value.Results

/-!
# The depth of big operators

Operations make nothing deeper than their operands, and a replacement makes a value deeper by at most the depth of
what is put in (`bigDepth_replaceWith_le`). So a number in the place of a symbol makes no body deeper, the depth that
`foldAt` is given always suffices, and which one it is does not matter (`foldAt_eq`). This gives big operators the
equation without a depth: over a range of integers the body is taken at each of them by substitution (`big_eq`).
-/

namespace Formula.Value

variable {a b c v w : Value} {vs ws : List Value} {d k : Nat}

/-! ## Operations -/

theorem listBigDepth_le_iff : listBigDepth vs ≤ d ↔ ∀ v ∈ vs, v.bigDepth ≤ d := by
  induction vs with
  | nil => simp [listBigDepth]
  | cons v vs ih => rw [listBigDepth, max_le_iff, ih, List.forall_mem_cons]

theorem Result.bigDepth_le {operands : List Value} {node : Value} (h : Result operands node v)
    (hoperands : ∀ a ∈ operands, a.bigDepth ≤ d) (hnode : node.bigDepth ≤ d) : v.bigDepth ≤ d := by
  cases h with
  | number | bool | constant => exact Nat.zero_le d
  | operand hv => exact hoperands v hv
  | node => exact hnode

theorem RowFrom.bigDepth_le (h : RowFrom vs ws) (hvs : ∀ v ∈ vs, v.bigDepth ≤ d) : ∀ w ∈ ws, w.bigDepth ≤ d := by
  intro w hw
  rcases h w hw with hw | ⟨n, rfl⟩
  · exact hvs w hw
  · exact Nat.zero_le d

theorem bigDepth_collect_le {wrap : List Value → Value} (hwrap : ∀ us, (wrap us).bigDepth = listBigDepth us)
    (h : ∀ v ∈ vs, v.bigDepth ≤ d) : (collect wrap vs).bigDepth ≤ d := by
  unfold collect
  split
  · exact h _ List.mem_cons_self
  · rw [hwrap]
    exact listBigDepth_le_iff.mpr h

theorem bigDepth_terms (h : v.bigDepth ≤ d) : ∀ t ∈ v.terms, t.bigDepth ≤ d := by
  unfold terms
  split
  · exact listBigDepth_le_iff.mp h
  · exact List.forall_mem_singleton.mpr h

theorem bigDepth_factors (h : v.bigDepth ≤ d) : ∀ f ∈ v.factors, f.bigDepth ≤ d := by
  unfold factors
  split
  · exact listBigDepth_le_iff.mp h
  · exact List.forall_mem_singleton.mpr h

theorem bigDepth_combine_le (op : BigOperator) (ha : a.bigDepth ≤ d) (hb : b.bigDepth ≤ d) :
    (op.combine a b).bigDepth ≤ d := by
  cases op with
  | sum =>
    obtain ⟨us, hus, he⟩ := ofTerms_row (a.terms ++ b.terms)
    show (add a b).bigDepth ≤ d
    rw [add, he]
    refine bigDepth_collect_le (fun _ => rfl) (hus.bigDepth_le ?_)
    exact List.forall_mem_append.mpr ⟨bigDepth_terms ha, bigDepth_terms hb⟩
  | product =>
    obtain ⟨us, hus, he⟩ := ofFactors_row (a.factors ++ b.factors)
    show (mul a b).bigDepth ≤ d
    rw [mul, he]
    refine bigDepth_collect_le (fun _ => rfl) (hus.bigDepth_le ?_)
    exact List.forall_mem_append.mpr ⟨bigDepth_factors ha, bigDepth_factors hb⟩

theorem bigDepth_foldl_le (op : BigOperator) (hvs : ∀ v ∈ vs, v.bigDepth ≤ d) (ha : a.bigDepth ≤ d) :
    (vs.foldl op.combine a).bigDepth ≤ d := by
  induction vs generalizing a with
  | nil => exact ha
  | cons v vs ih =>
    have h := List.forall_mem_cons.mp hvs
    exact ih h.2 (bigDepth_combine_le op ha h.1)

theorem bigDepth_apply_le (name : String) (h : ∀ v ∈ vs, v.bigDepth ≤ d) : (apply name vs).bigDepth ≤ d := by
  rcases apply_result name vs with hr | ⟨a, -, rfl, he⟩
  · exact hr.bigDepth_le h (listBigDepth_le_iff.mpr h)
  · rw [he]
    exact (abs_result a).bigDepth_le h (h a List.mem_cons_self)

theorem bigDepth_node (op : BigOperator) (var : String) :
    (op.node var a b c).bigDepth = max (max a.bigDepth b.bigDepth) (c.bigDepth + 1) := by
  cases op <;> rfl

/-- An operation on two operands makes nothing deeper than the deeper of them. -/
theorem Result.bigDepth_le_pair {node : Value} (h : Result [a, b] node v)
    (hnode : node.bigDepth = max a.bigDepth b.bigDepth) (hab : max a.bigDepth b.bigDepth ≤ d) : v.bigDepth ≤ d := by
  refine h.bigDepth_le ?_ (hnode ▸ hab)
  obtain ⟨ha, hb⟩ := max_le_iff.mp hab
  exact List.forall_mem_cons.mpr ⟨ha, List.forall_mem_singleton.mpr hb⟩

theorem max_le_max_add {m n m' n' : Nat} (hm : m ≤ m' + k) (hn : n ≤ n' + k) : max m n ≤ max m' n' + k := by
  omega

theorem max_add_le {m n : Nat} (h : max m n + k ≤ d) : m + k ≤ d ∧ n + k ≤ d := by
  omega

/-! ## Replacing -/

/-- The way of folding makes nothing deeper than the node that it stands for. -/
def Folding.Shallow (fold : Folding) : Prop :=
  ∀ op var a b c, (fold op var a b c).bigDepth ≤ max (max a.bigDepth b.bigDepth) (c.bigDepth + 1)

/-- What is put in has at most the given depth. -/
def ReplacesBelow (k : Nat) (pairs : List (Value × Value)) : Prop := ∀ p ∈ pairs, p.2.bigDepth ≤ k

theorem ReplacesBelow.withoutSymbol {pairs : List (Value × Value)} (h : ReplacesBelow k pairs) (var : String) :
    ReplacesBelow k (withoutSymbol var pairs) := fun p hp => h p (List.mem_of_mem_filter hp)

theorem exists_replacesBelow (pairs : List (Value × Value)) : ∃ k, ReplacesBelow k pairs :=
  ⟨listBigDepth (pairs.map (·.2)), fun _ hp => listBigDepth_le_iff.mp le_rfl _ (List.mem_map_of_mem hp)⟩

theorem ReplacesBelow.replacement? {pairs : List (Value × Value)} (h : ReplacesBelow k pairs)
    (hw : replacement? pairs v = some w) : w.bigDepth ≤ k := by
  obtain ⟨p, hp, rfl⟩ := Option.map_eq_some_iff.mp hw
  exact h p (List.mem_of_find?_eq_some hp)

theorem replacesBelow_int (var : String) (n : Int) : ReplacesBelow 0 [(.symbol var, .int n)] :=
  List.forall_mem_singleton.mpr le_rfl

section

variable {fold : Folding}

mutual

/-- A replacement makes a value deeper by at most the depth of what is put in. -/
theorem bigDepth_replaceWith_le (hfold : fold.Shallow) {pairs : List (Value × Value)} (hpairs : ReplacesBelow k pairs) :
    (v : Value) → (replaceWith fold pairs v).bigDepth ≤ v.bigDepth + k := by
  intro v
  unfold replaceWith
  cases hr : replacement? pairs v with
  | some w => exact Nat.le_add_left_of_le (hpairs.replacement? hr)
  | none =>
    dsimp only
    match v with
    | .number _ | .bool _ | .symbol _ | .constant _ | .set _ | .function _ => exact Nat.le_add_right ..
    | .sum vs => exact bigDepth_foldl_le .sum (bigDepth_replaceList_le hfold hpairs vs) (Nat.zero_le _)
    | .product vs => exact bigDepth_foldl_le .product (bigDepth_replaceList_le hfold hpairs vs) (Nat.zero_le _)
    | .application name vs => exact bigDepth_apply_le name (bigDepth_replaceList_le hfold hpairs vs)
    | .factorial a =>
      have ha := bigDepth_replaceWith_le hfold hpairs a
      exact (fact_result _).bigDepth_le (List.forall_mem_singleton.mpr ha) ha
    | .absolute a =>
      have ha := bigDepth_replaceWith_le hfold hpairs a
      exact (abs_result _).bigDepth_le (List.forall_mem_singleton.mpr ha) ha
    | .power a b =>
      have hab := max_le_max_add (bigDepth_replaceWith_le hfold hpairs a) (bigDepth_replaceWith_le hfold hpairs b)
      exact (pow_result ..).bigDepth_le_pair rfl hab
    | .remainder a b =>
      have hab := max_le_max_add (bigDepth_replaceWith_le hfold hpairs a) (bigDepth_replaceWith_le hfold hpairs b)
      exact (mod_result ..).bigDepth_le_pair rfl hab
    | .relation _ a b =>
      have hab := max_le_max_add (bigDepth_replaceWith_le hfold hpairs a) (bigDepth_replaceWith_le hfold hpairs b)
      exact (relate_result ..).bigDepth_le_pair rfl hab
    | .intersection a b =>
      have hab := max_le_max_add (bigDepth_replaceWith_le hfold hpairs a) (bigDepth_replaceWith_le hfold hpairs b)
      exact (restrict_result ..).bigDepth_le_pair rfl hab
    | .interval a b _ _ =>
      exact max_le_max_add (bigDepth_replaceWith_le hfold hpairs a) (bigDepth_replaceWith_le hfold hpairs b)
    | .limit var a b =>
      have hb := bigDepth_replaceWith_le hfold (hpairs.withoutSymbol var) b
      exact (limitOf_result ..).bigDepth_le_pair rfl (max_le_max_add (bigDepth_replaceWith_le hfold hpairs a) hb)
    | .bigSum var a b c | .bigProduct var a b c =>
      have hab := max_le_max_add (bigDepth_replaceWith_le hfold hpairs a) (bigDepth_replaceWith_le hfold hpairs b)
      have hc := bigDepth_replaceWith_le hfold (hpairs.withoutSymbol var) c
      exact (hfold ..).trans (max_le_max_add hab (by omega))

theorem bigDepth_replaceList_le (hfold : fold.Shallow) {pairs : List (Value × Value)} (hpairs : ReplacesBelow k pairs) :
    (vs : List Value) → ∀ w ∈ replaceList fold pairs vs, w.bigDepth ≤ listBigDepth vs + k
  | [] => by simp [replaceList]
  | v :: vs => by
    rw [replaceList, listBigDepth]
    refine List.forall_mem_cons.mpr ⟨?_, fun w hw => ?_⟩
    · exact (bigDepth_replaceWith_le hfold hpairs v).trans (Nat.add_le_add_right (le_max_left ..) k)
    · exact (bigDepth_replaceList_le hfold hpairs vs w hw).trans (Nat.add_le_add_right (le_max_right ..) k)

end

end

theorem shallow_foldAt (depth : Nat) : Folding.Shallow (foldAt depth) := by
  induction depth with
  | zero => exact fun op var _ _ _ => (bigDepth_node op var).le
  | succ depth ih =>
    intro op var a b c
    unfold foldAt
    cases range? a b with
    | none => exact (bigDepth_node op var).le
    | some ks =>
      have hunit : op.unit.bigDepth ≤ c.bigDepth := by cases op <;> exact Nat.zero_le _
      have hks : ∀ v ∈ ks.map (fun k => replaceWith (foldAt depth) [(.symbol var, .int k)] c),
          v.bigDepth ≤ c.bigDepth := by
        refine List.forall_mem_map.mpr fun k _ => ?_
        exact bigDepth_replaceWith_le ih (replacesBelow_int var k) c
      have h := bigDepth_foldl_le op hks hunit
      rw [List.foldl_map] at h
      dsimp only
      omega

theorem shallow_big : Folding.Shallow big := fun op var a b c => shallow_foldAt (c.bigDepth + 1) op var a b c

/-! ## The depth does not matter -/

/-- The ways of folding agree on bodies below the given depth. -/
def Folding.AgreeBelow (n : Nat) (fold fold' : Folding) : Prop :=
  ∀ op var a b c, c.bigDepth < n → fold op var a b c = fold' op var a b c

section

variable {fold fold' : Folding} {n : Nat}

mutual

/-- Substitution of numbers in a value asks for the folding of bodies that are less deep than the value. -/
theorem replaceWith_congr (hfold : fold.Shallow) (h : fold.AgreeBelow n fold') {pairs : List (Value × Value)}
    (hpairs : ReplacesBelow 0 pairs) :
    (v : Value) → v.bigDepth ≤ n → replaceWith fold pairs v = replaceWith fold' pairs v := by
  intro v hv
  unfold replaceWith
  cases replacement? pairs v with
  | some w => rfl
  | none =>
    dsimp only
    match v, hv with
    | .number _, _ | .bool _, _ | .symbol _, _ | .constant _, _ | .set _, _ | .function _, _ => rfl
    | .sum vs, hv | .product vs, hv | .application _ vs, hv =>
      dsimp only
      rw [replaceList_congr hfold h hpairs vs (listBigDepth_le_iff.mp hv)]
    | .factorial a, hv | .absolute a, hv =>
      dsimp only
      rw [replaceWith_congr hfold h hpairs a hv]
    | .power a b, hv | .remainder a b, hv | .relation _ a b, hv | .intersection a b, hv | .interval a b _ _, hv =>
      obtain ⟨ha, hb⟩ := max_le_iff.mp hv
      dsimp only
      rw [replaceWith_congr hfold h hpairs a ha, replaceWith_congr hfold h hpairs b hb]
    | .limit var a b, hv =>
      obtain ⟨ha, hb⟩ := max_le_iff.mp hv
      dsimp only
      rw [replaceWith_congr hfold h hpairs a ha, replaceWith_congr hfold h (hpairs.withoutSymbol var) b hb]
    | .bigSum var a b c, hv | .bigProduct var a b c, hv =>
      obtain ⟨hab, hc⟩ := max_le_iff.mp hv
      obtain ⟨ha, hb⟩ := max_le_iff.mp hab
      have hdepth := bigDepth_replaceWith_le hfold (hpairs.withoutSymbol var) c
      dsimp only
      rw [h _ _ _ _ _ (by omega), replaceWith_congr hfold h hpairs a ha, replaceWith_congr hfold h hpairs b hb,
        replaceWith_congr hfold h (hpairs.withoutSymbol var) c (by omega)]

theorem replaceList_congr (hfold : fold.Shallow) (h : fold.AgreeBelow n fold') {pairs : List (Value × Value)}
    (hpairs : ReplacesBelow 0 pairs) :
    (vs : List Value) → (∀ v ∈ vs, v.bigDepth ≤ n) → replaceList fold pairs vs = replaceList fold' pairs vs
  | [], _ => rfl
  | v :: vs, hvs => by
    rw [replaceList, replaceList, replaceWith_congr hfold h hpairs v (hvs v List.mem_cons_self),
      replaceList_congr hfold h hpairs vs fun v hv => hvs v (List.mem_cons_of_mem _ hv)]

end

end

/-- Any depth above that of the body folds alike. -/
theorem foldAt_eq {op : BigOperator} {var : String} {m n : Nat} (hm : c.bigDepth < m) (hn : c.bigDepth < n) :
    foldAt m op var a b c = foldAt n op var a b c := by
  induction m generalizing n op var a b c with
  | zero => exact absurd hm (Nat.not_lt_zero _)
  | succ m ih =>
    obtain ⟨n, rfl⟩ : ∃ n', n = n' + 1 := ⟨n - 1, by omega⟩
    have hbody : ∀ k : Int, replaceWith (foldAt m) [(.symbol var, .int k)] c =
        replaceWith (foldAt n) [(.symbol var, .int k)] c := fun k =>
      replaceWith_congr (shallow_foldAt m) (fun _ _ _ _ _ hd => ih (by omega) (by omega)) (replacesBelow_int var k) c
        le_rfl
    unfold foldAt
    simp only [hbody]

/-- A big operator over a range of integers takes the body at each of them; without a range it stands for itself. -/
theorem big_eq (op : BigOperator) (var : String) (a b c : Value) :
    big op var a b c =
      match range? a b with
      | none => op.node var a b c
      | some ks => (ks.map fun k => c.subst var (.int k)).foldl op.combine op.unit := by
  have hbody : ∀ k : Int, replaceWith (foldAt c.bigDepth) [(.symbol var, .int k)] c = c.subst var (.int k) := fun k =>
    replaceWith_congr (shallow_foldAt _) (fun _ _ _ _ _ hd => foldAt_eq hd (Nat.lt_succ_self _))
      (replacesBelow_int var k) c le_rfl
  unfold big foldAt
  cases range? a b with
  | none => rfl
  | some ks => simp only [hbody, List.foldl_map]

end Formula.Value
