import Formula.Proofs.Number.Neutral
import Formula.Proofs.Value.Rows

/-!
# Rows that grow item by item

Substitution takes the terms of a sum one by one from zero, and the factors of a product one by one from one. A normal
row grows to itself so: symbolic items are appended (`foldl_combine_unit`), and a number finds its place behind the
terms or in front of the factors (`foldl_add_eq`, `foldl_mul_eq`). There is one exception, and there it never does
(`foldl_mul_ne`): zero in front of a factor that is no infinity swallows it, although an infinity may follow
(`fades`).
-/

namespace Formula.Value

variable {op : BigOperator} {v w : Value} {us vs ws : List Value} {n : Number}

/-! ## Symbolic items -/

/-- A flat row and an item are combined as one row. -/
theorem combine_collect (op : BigOperator) (us : List Value) (v : Value) (hne : us ≠ [])
    (hus : ∀ u ∈ us, ∀ ts, u ≠ op.wrap ts) (hv : ∀ ts, v ≠ op.wrap ts) :
    op.combine (collect op.wrap us) v = op.join (us ++ [v]) := by
  rw [op.combine_eq, row_collect hne hus, row_of_flat hv]

theorem join_symbolic (hne : us ≠ []) (h : ∀ n, .number n ∉ us) : op.join us = collect op.wrap us := by
  obtain ⟨hs, hn⟩ := symbolic_of_no_numbers h
  cases op with
  | sum =>
    show ofTerms us = collect .sum us
    unfold ofTerms
    rw [hs, hn]
    exact congrArg (collect .sum) (if_pos (And.intro rfl hne))
  | product =>
    show ofFactors us = collect .product us
    unfold ofFactors
    rw [hs, hn]
    exact congrArg (collect .product) (if_pos (And.intro rfl hne))

/-- Symbolic items are appended one by one. -/
theorem foldl_combine_collect (us : List Value) (hne : us ≠ []) (h : ∀ n, .number n ∉ us ++ vs)
    (hflat : ∀ u ∈ us ++ vs, ∀ ts, u ≠ op.wrap ts) :
    vs.foldl op.combine (collect op.wrap us) = collect op.wrap (us ++ vs) := by
  induction vs generalizing us with
  | nil => rw [List.append_nil, List.foldl_nil]
  | cons v vs ih =>
    rw [List.append_cons] at h hflat ⊢
    obtain ⟨husv, -⟩ := List.forall_mem_append.mp hflat
    obtain ⟨hus, hv⟩ := List.forall_mem_append.mp husv
    rw [List.foldl_cons, combine_collect op us v hne hus (hv v List.mem_cons_self),
      join_symbolic (List.concat_ne_nil _ _) fun n hn => h n (List.mem_append_left _ hn)]
    exact ih _ (List.concat_ne_nil _ _) h hflat

theorem unit_combine_symbolic (hv : ∀ n, v ≠ .number n) (hflat : ∀ ts, v ≠ op.wrap ts) : op.combine op.unit v = v := by
  obtain ⟨hs, hn⟩ := symbolic_of_no_numbers fun n (hn : .number n ∈ [v]) => hv n (List.mem_singleton.mp hn).symm
  have hunit : op.row op.unit = [op.unit] := by cases op <;> rfl
  rw [op.combine_eq, hunit, row_of_flat hflat]
  cases op with
  | sum =>
    show ofTerms ([zero] ++ [v]) = v
    unfold ofTerms
    rw [symbolic_append, numbers_append, hs, hn]
    rfl
  | product =>
    show ofFactors ([one] ++ [v]) = v
    unfold ofFactors
    rw [symbolic_append, numbers_append, hs, hn]
    rfl

/-- Symbolic items grow to their row. -/
theorem foldl_combine_unit (op : BigOperator) (hne : us ≠ []) (h : ∀ n, .number n ∉ us)
    (hflat : ∀ u ∈ us, ∀ ts, u ≠ op.wrap ts) :
    us.foldl op.combine op.unit = collect op.wrap us := by
  match us with
  | [] => exact absurd rfl hne
  | u :: us =>
    have hu : ∀ n, u ≠ .number n := fun n hn => h n (hn ▸ List.mem_cons_self)
    rw [List.foldl_cons, unit_combine_symbolic hu (hflat u List.mem_cons_self)]
    exact foldl_combine_collect [u] (List.cons_ne_nil _ _) h hflat

/-! ## Terms and a number -/

/-- A number other than zero is appended as the last term. -/
theorem ofTerms_last (h : ∀ n, .number n ∉ us) (hn : n.Normal) (hz : n.isZero = false) :
    ofTerms (us ++ [.number n]) = collect .sum (us ++ [.number n]) := by
  obtain ⟨hs, hno⟩ := symbolic_of_no_numbers h
  have hsymbolic : symbolic (us ++ [.number n]) = us := by
    rw [symbolic_append, hs]
    exact List.append_nil us
  have hnumbers : numbers (us ++ [.number n]) = [n] := by
    rw [numbers_append, hno]
    rfl
  unfold ofTerms
  rw [hsymbolic, hnumbers, List.foldl_cons, List.foldl_nil, Number.zero_add hn hz]
  dsimp only
  rw [hz, if_neg fun h => Bool.false_ne_true h.1]

/-- The terms of a normal sum grow to it. -/
theorem foldl_add_eq (h : (sum vs).Normal) : vs.foldl add zero = .sum vs := by
  have hflat : ∀ v ∈ vs, ∀ ts, v ≠ .sum ts := h.node.flat
  have hlen : 2 ≤ vs.length := h.node.two_le
  rw [← (collect_of_two_le hlen : collect .sum vs = .sum vs)]
  rcases h.terms_split with hno | ⟨us, n, hrow, hs, -⟩
  · exact foldl_combine_unit .sum (List.length_pos_iff.mp (by omega)) hno hflat
  · change vs = us ++ [.number n] at hrow
    change symbolic vs = us at hs
    have hus : ∀ m, .number m ∉ us := fun m hm => (mem_symbolic.mp (hs ▸ hm)).2 m rfl
    subst hrow
    have hlast : (us ++ [.number n])[us.length]? = some (.number n) := List.getElem?_concat_length
    have hnormal : (Value.number n).Normal := h.part (List.mem_append_right _ List.mem_cons_self)
    have hne : us ≠ [] := by
      rintro rfl
      cases hlen with
      | step h => cases h
    have husflat := (List.forall_mem_append.mp hflat).1
    have hfirst : us.foldl add zero = collect .sum us := foldl_combine_unit .sum hne hus husflat
    rw [List.foldl_append, hfirst, List.foldl_cons, List.foldl_nil]
    show BigOperator.combine .sum (collect .sum us) (.number n) = _
    refine (combine_collect .sum us (.number n) hne husflat fun _ => nofun).trans ?_
    exact ofTerms_last hus hnormal.node (h.node.number _ n hlast).2

/-! ## Factors behind a number -/

/-- A number that is not one stays in front of factors, if it is not zero or the first of them is an infinity. -/
theorem ofFactors_front (h : ∀ m, .number m ∉ us) (hn : n.Normal) (h1 : n.isOne = false)
    (h0 : n.isZero = true → us.head?.any isInfinite = true) :
    ofFactors (.number n :: us) = collect .product (.number n :: us) := by
  obtain ⟨hs, hno⟩ := symbolic_of_no_numbers h
  have hsymbolic : symbolic (.number n :: us) = us := hs
  have hnumbers : numbers (.number n :: us) = [n] := congrArg (n :: ·) hno
  have hkeep : ¬ (n.isZero = true ∧ ¬ us.any isInfinite = true) := by
    rintro ⟨hz, hnot⟩
    obtain ⟨u, hu, hinf⟩ := (Option.any_eq_true ..).mp (h0 hz)
    exact hnot (List.any_eq_true.mpr ⟨u, List.mem_of_mem_head? hu, hinf⟩)
  unfold ofFactors
  rw [hsymbolic, hnumbers, List.foldl_cons, List.foldl_nil, Number.one_mul hn]
  dsimp only
  rw [if_neg hkeep, h1, if_neg fun h => Bool.false_ne_true h.1]

theorem mul_one_number (hn : n.Normal) : mul one (.number n) = .number n := by
  show ofFactors [one, .number n] = _
  have hnumbers : (numbers [one, .number n]).foldl Number.mul .one = n := Number.one_mul hn
  unfold ofFactors
  rw [hnumbers]
  dsimp only
  split
  · rfl
  · exact congrArg (collect .product) (if_neg fun h => h.2 rfl)

/-- Factors are appended behind a number one by one. -/
theorem foldl_mul_front (us : List Value) (h : ∀ m, .number m ∉ us ++ vs)
    (hflat : ∀ u ∈ us ++ vs, ∀ fs, u ≠ .product fs) (hn : n.Normal)
    (h1 : n.isOne = false) (h0 : n.isZero = true → (us ++ vs).head?.any isInfinite = true) :
    vs.foldl mul (collect .product (.number n :: us)) = collect .product (.number n :: (us ++ vs)) := by
  induction vs generalizing us with
  | nil => rw [List.append_nil, List.foldl_nil]
  | cons v vs ih =>
    rw [List.append_cons] at h hflat h0 ⊢
    obtain ⟨husv, -⟩ := List.forall_mem_append.mp hflat
    obtain ⟨hus, hv⟩ := List.forall_mem_append.mp husv
    have hrow : ∀ u ∈ Value.number n :: us, ∀ fs, u ≠ .product fs := List.forall_mem_cons.mpr ⟨fun _ => nofun, hus⟩
    have hstep : mul (collect .product (.number n :: us)) v = collect .product (.number n :: (us ++ [v])) := by
      refine (combine_collect .product _ v (List.cons_ne_nil _ _) hrow (hv v List.mem_cons_self)).trans ?_
      refine ofFactors_front (fun m hm => h m (List.mem_append_left _ hm)) hn h1 fun hz => ?_
      have hhead := h0 hz
      rwa [List.head?_append_of_ne_nil _ (List.concat_ne_nil _ _)] at hhead
    rw [List.foldl_cons, hstep]
    exact ih _ h hflat h0

/-- A product of zero and factors of which the first is no infinity: taken one by one, zero swallows that factor,
whatever follows. -/
def fades : Value → Bool
  | .product (.number c :: f :: _) => c.isZero && !f.isInfinite
  | _ => false

/-- The factors of a normal product are symbolic, or stand behind a number other than one. -/
theorem Normal.product_cases (h : (product vs).Normal) :
    (∀ n, .number n ∉ vs) ∨
      ∃ n us, vs = .number n :: us ∧ (∀ m, .number m ∉ us) ∧ n.Normal ∧ n.isOne = false := by
  rcases h.factors_split with hno | ⟨us, n, hrow, hs, -⟩
  · exact .inl hno
  · change vs = .number n :: us at hrow
    change symbolic vs = us at hs
    have hus : ∀ m, .number m ∉ us := fun m hm => (mem_symbolic.mp (hs ▸ hm)).2 m rfl
    subst hrow
    have hnormal : (Value.number n).Normal := h.part List.mem_cons_self
    exact .inr ⟨n, us, rfl, hus, hnormal.node, (h.node.number 0 n rfl).2.1⟩

/-- The factors of a normal product grow to it, unless it fades. -/
theorem foldl_mul_eq (h : (product vs).Normal) (hkeep : (product vs).fades = false) :
    vs.foldl mul one = .product vs := by
  have hflat : ∀ v ∈ vs, ∀ fs, v ≠ .product fs := h.node.flat
  have hlen : 2 ≤ vs.length := h.node.two_le
  rw [← (collect_of_two_le hlen : collect .product vs = .product vs)]
  rcases h.product_cases with hno | ⟨n, us, rfl, hus, hn, h1⟩
  · exact foldl_combine_unit .product (List.length_pos_iff.mp (by omega)) hno hflat
  · rw [List.foldl_cons, mul_one_number hn]
    refine foldl_mul_front [] hus (List.forall_mem_cons.mp hflat).2 hn h1 fun hz => ?_
    match us, hlen, hkeep with
    | f :: _, _, hkeep =>
      have hkeep : (n.isZero && !f.isInfinite) = false := hkeep
      rw [hz, Bool.true_and, Bool.not_eq_false'] at hkeep
      exact hkeep

/-- Zero swallows a factor that is no infinity. -/
theorem ofFactors_swallow (h : ∀ m, v ≠ .number m) (hn : n.Normal) (hz : n.isZero = true)
    (hfin : v.isInfinite = false) :
    ofFactors [.number n, v] = .number n := by
  obtain ⟨hs, hno⟩ := symbolic_of_no_numbers fun m (hm : .number m ∈ [v]) => h m (List.mem_singleton.mp hm).symm
  have hsymbolic : symbolic [.number n, v] = [v] := hs
  have hnumbers : numbers [.number n, v] = [n] := congrArg (n :: ·) hno
  unfold ofFactors
  rw [hsymbolic, hnumbers, List.foldl_cons, List.foldl_nil, Number.one_mul hn]
  refine if_pos ⟨hz, ?_⟩
  rw [List.any_cons, hfin]
  exact Bool.false_ne_true

/-- Factors that are taken one by one from zero on are behind it in the end, or are swallowed by it. -/
theorem foldl_mul_zero (us : List Value) (h : ∀ m, .number m ∉ us ++ vs) (hflat : ∀ u ∈ us ++ vs, ∀ fs, u ≠ .product fs)
    (hn : n.Normal) (h1 : n.isOne = false) (hz : n.isZero = true) (hus : us ≠ [] → us.head?.any isInfinite = true) :
    ∃ ws, vs.foldl mul (collect .product (.number n :: us)) = collect .product (.number n :: ws) ∧
      (∀ w ∈ ws, ∀ fs, w ≠ .product fs) ∧ ws.length ≤ us.length + vs.length := by
  induction vs generalizing us with
  | nil => exact ⟨us, rfl, fun w hw => hflat w (List.mem_append_left _ hw), Nat.le_add_right ..⟩
  | cons v vs ih =>
    have hsplit : us ++ v :: vs = us ++ [v] ++ vs := List.append_cons ..
    rw [hsplit] at h hflat
    obtain ⟨husv, hvs⟩ := List.forall_mem_append.mp hflat
    obtain ⟨hufs, hv⟩ := List.forall_mem_append.mp husv
    have hrow : ∀ u ∈ Value.number n :: us, ∀ fs, u ≠ .product fs := List.forall_mem_cons.mpr ⟨fun _ => nofun, hufs⟩
    have hstep : mul (collect .product (.number n :: us)) v = ofFactors (.number n :: (us ++ [v])) :=
      combine_collect .product _ v (List.cons_ne_nil _ _) hrow (hv v List.mem_cons_self)
    have husv' : ∀ m, .number m ∉ us ++ [v] := fun m hm => h m (List.mem_append_left _ hm)
    rw [List.foldl_cons, hstep]
    by_cases hkeep : (us ++ [v]).head?.any isInfinite = true
    · rw [ofFactors_front husv' hn h1 fun _ => hkeep]
      obtain ⟨ws, he, hws, hlen⟩ := ih _ h hflat fun _ => hkeep
      refine ⟨ws, he, hws, ?_⟩
      rw [List.length_append, List.length_singleton] at hlen
      rw [List.length_cons]
      omega
    · obtain rfl : us = [] := by
        by_contra hne
        rw [List.head?_append_of_ne_nil _ hne] at hkeep
        exact hkeep (hus hne)
      rw [List.nil_append, ofFactors_swallow (fun m hm => husv' m (hm ▸ List.mem_singleton_self v)) hn hz
        (Bool.eq_false_iff.mpr hkeep)]
      obtain ⟨ws, he, hws, hlen⟩ := ih [] (fun m hm => h m (List.mem_append_right _ hm)) hvs fun hne => absurd rfl hne
      exact ⟨ws, he, hws, hlen.trans (by simp)⟩

/-- Where a product fades, its factors do not grow to it. -/
theorem foldl_mul_ne (h : (product vs).Normal) (hfades : (product vs).fades = true) :
    vs.foldl mul one ≠ .product vs := by
  have hflat : ∀ v ∈ vs, ∀ fs, v ≠ .product fs := h.node.flat
  have hlen : 2 ≤ vs.length := h.node.two_le
  rcases h.product_cases with hno | ⟨n, us, rfl, hus, hn, h1⟩
  · match vs, hlen, hfades, hno with
    | .number n :: _ :: _, _, _, hno => exact absurd List.mem_cons_self (hno n)
  · match us, hlen, hfades with
    | f :: us, _, hfades =>
      have hfades : (n.isZero && !f.isInfinite) = true := hfades
      obtain ⟨hz, hf⟩ := Bool.and_eq_true_iff.mp hfades
      obtain ⟨hf', hus'⟩ := List.forall_mem_cons.mp (List.forall_mem_cons.mp hflat).2
      have hfirst : mul (.number n) f = .number n :=
        (combine_collect .product [.number n] f (List.cons_ne_nil _ _)
          (List.forall_mem_singleton.mpr fun _ => nofun) hf').trans
          (ofFactors_swallow (fun m hm => hus m (hm ▸ List.mem_cons_self)) hn hz
            ((Bool.not_eq_true' _).mp hf))
      obtain ⟨ws, he, hws, hwslen⟩ := foldl_mul_zero [] (fun m hm => hus m (List.mem_cons_of_mem _ hm)) hus'
        hn h1 hz fun hne => absurd rfl hne
      intro hsame
      rw [List.foldl_cons, mul_one_number hn, List.foldl_cons, hfirst] at hsame
      have hfactors : (collect .product (.number n :: ws)).factors = .number n :: f :: us :=
        congrArg factors (he.symm.trans hsame)
      have hcollected : BigOperator.row .product (collect (BigOperator.wrap .product) (.number n :: ws)) =
          .number n :: ws :=
        row_collect (List.cons_ne_nil _ _) (List.forall_mem_cons.mpr ⟨fun _ => nofun, hws⟩)
      have hlens := congrArg List.length (hcollected.symm.trans hfactors)
      simp only [List.length_cons, List.length_nil] at hlens hwslen
      omega

end Formula.Value
