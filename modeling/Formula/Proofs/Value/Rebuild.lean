import Formula.Proofs.Value.Capture
import Formula.Proofs.Value.Depth
import Formula.Proofs.Value.Growth

/-!
# Building values anew

Substitution builds every node of a value anew by the operation that the node stands for, and sums and products one
item at a time. Where nothing is replaced this gives the value again for two reasons. The nodes that operations leave
are fixed by these operations: a value is `Settled` if all its nodes are, and every operation and substitution gives
such values, whatever it is applied to (`settled_replaceAll`). And normal rows grow to themselves, unless a product
fades. So a substitution for symbols that are not free changes nothing (`replaceWith_eq_self`).
-/

namespace Formula.Value

variable {a b c v w : Value} {us vs ws : List Value} {k : Nat} {pairs : List (Value × Value)}

/-! ## Settled values -/

/-- The subvalues that substitution goes on with: all but the bodies of functions. -/
def operands : Value → List Value
  | .function _ => []
  | v => v.parts

/-- The property holds of the value and of all that substitution comes to in it. -/
inductive All (P : Value → Prop) : Value → Prop where
  | intro {v : Value} (hv : P v) (h : ∀ w ∈ v.operands, All P w) : All P v

/-- The operation that a node stands for, at the operands of the node. -/
def rebuild : Value → Value
  | .power a b => pow a b
  | .remainder a b => mod a b
  | .factorial a => a.fact
  | .absolute a => a.abs
  | .application name args => apply name args
  | .relation op a b => relate op a b
  | .interval a b l r => between a b l r
  | .intersection a b => restrict a b
  | .limit var a b => limitOf var a b
  | .bigSum var a b c => big .sum var a b c
  | .bigProduct var a b c => big .product var a b c
  | v => v

/-- All nodes are what the operations that they stand for give. -/
def Settled (v : Value) : Prop := v.All fun w => w.rebuild = w

namespace All

variable {P : Value → Prop}

theorem node (h : v.All P) : P v := by
  cases h
  assumption

theorem part (h : v.All P) (hw : w ∈ v.operands) : w.All P := by
  cases h with
  | intro _ h => exact h w hw

theorem pair (ha : a.All P) (hb : b.All P) : ∀ w ∈ [a, b], w.All P :=
  List.forall_mem_cons.mpr ⟨ha, List.forall_mem_singleton.mpr hb⟩

end All

namespace Settled

theorem leaf (hv : v.operands = []) (h : v.rebuild = v) : v.Settled := .intro h fun _ hw => nomatch hv ▸ hw

theorem number (n : Number) : (Value.number n).Settled := .leaf rfl rfl

theorem symbol (name : String) : (Value.symbol name).Settled := .leaf rfl rfl

theorem function (f : Function) : (Value.function f).Settled := .leaf rfl rfl

theorem set (s : NumberSet) : (Value.set s).Settled := .leaf rfl rfl

/-- The result of an operation is settled, if the node that stands for the operation is built by it. -/
theorem result {node : Value} (h : Result vs node v) (hnode : node.rebuild = v) (hparts : node.operands = vs)
    (hvs : ∀ w ∈ vs, w.Settled) : v.Settled := by
  cases h with
  | number n => exact .number n
  | bool b => exact .leaf rfl rfl
  | constant c => exact .leaf rfl rfl
  | operand hv => exact hvs v hv
  | node => exact .intro hnode (hparts ▸ hvs)

theorem pow (ha : a.Settled) (hb : b.Settled) : (pow a b).Settled := .result (pow_result a b) rfl rfl (All.pair ha hb)

theorem mod (ha : a.Settled) (hb : b.Settled) : (mod a b).Settled := .result (mod_result a b) rfl rfl (All.pair ha hb)

theorem fact (ha : a.Settled) : a.fact.Settled := .result (fact_result a) rfl rfl (List.forall_mem_singleton.mpr ha)

theorem abs (ha : a.Settled) : a.abs.Settled := .result (abs_result a) rfl rfl (List.forall_mem_singleton.mpr ha)

theorem apply (name : String) (h : ∀ v ∈ vs, v.Settled) : (apply name vs).Settled := by
  rcases apply_result name vs with hr | ⟨a, -, rfl, he⟩
  · exact .result hr rfl rfl h
  · rw [he]
    exact (h a List.mem_cons_self).abs

theorem relate (op : Relation) (ha : a.Settled) (hb : b.Settled) : (relate op a b).Settled :=
  .result (relate_result op a b) rfl rfl (All.pair ha hb)

theorem restrict (ha : a.Settled) (hb : b.Settled) : (restrict a b).Settled :=
  .result (restrict_result a b) rfl rfl (All.pair ha hb)

theorem limitOf (var : String) (ha : a.Settled) (hb : b.Settled) : (limitOf var a b).Settled :=
  .result (limitOf_result var a b) rfl rfl (All.pair ha hb)

theorem between (ha : a.Settled) (hb : b.Settled) (l r : Bool) : (between a b l r).Settled := by
  refine .intro ?_ (All.pair ha hb)
  show Value.between a b (l || a.isInfiniteEnd) (r || b.isInfiniteEnd) = Value.between a b l r
  unfold Value.between
  rw [Bool.or_assoc, Bool.or_self, Bool.or_assoc, Bool.or_self]

/-! ## Rows -/

theorem collect {wrap : List Value → Value} (hwrap : ∀ us, (wrap us).operands = us ∧ (wrap us).rebuild = wrap us)
    (h : RowFrom vs us) (hvs : ∀ v ∈ vs, v.Settled) : (collect wrap us).Settled := by
  have hus : ∀ u ∈ us, u.Settled := by
    intro u hu
    rcases h u hu with hu | ⟨n, rfl⟩
    · exact hvs u hu
    · exact .number n
  unfold Value.collect
  split
  · exact hus _ List.mem_cons_self
  · exact .intro (hwrap us).2 ((hwrap us).1.symm ▸ hus)

theorem terms (h : v.Settled) : ∀ t ∈ v.terms, t.Settled := by
  unfold Value.terms
  split
  · exact fun t ht => h.part ht
  · exact List.forall_mem_singleton.mpr h

theorem factors (h : v.Settled) : ∀ f ∈ v.factors, f.Settled := by
  unfold Value.factors
  split
  · exact fun f hf => h.part hf
  · exact List.forall_mem_singleton.mpr h

theorem add (ha : a.Settled) (hb : b.Settled) : (add a b).Settled := by
  obtain ⟨us, hus, he⟩ := ofTerms_row (a.terms ++ b.terms)
  rw [Value.add, he]
  exact collect (fun _ => ⟨rfl, rfl⟩) hus (List.forall_mem_append.mpr ⟨ha.terms, hb.terms⟩)

theorem mul (ha : a.Settled) (hb : b.Settled) : (mul a b).Settled := by
  obtain ⟨us, hus, he⟩ := ofFactors_row (a.factors ++ b.factors)
  rw [Value.mul, he]
  exact collect (fun _ => ⟨rfl, rfl⟩) hus (List.forall_mem_append.mpr ⟨ha.factors, hb.factors⟩)

theorem neg (ha : a.Settled) : a.neg.Settled := .mul (.number _) ha

theorem sub (ha : a.Settled) (hb : b.Settled) : (sub a b).Settled := ha.add hb.neg

theorem div (ha : a.Settled) (hb : b.Settled) : (div a b).Settled := by
  unfold Value.div
  split
  · exact ha.mul (hb.pow (.number _))
  · split
    · exact .leaf rfl rfl
    · split
      · exact .number _
      · exact .leaf rfl rfl
    · exact ha.mul (.number _)

theorem combine (op : BigOperator) (ha : a.Settled) (hb : b.Settled) : (op.combine a b).Settled := by
  cases op
  · exact ha.add hb
  · exact ha.mul hb

theorem foldl (op : BigOperator) (hvs : ∀ v ∈ vs, v.Settled) (ha : a.Settled) : (vs.foldl op.combine a).Settled := by
  induction vs generalizing a with
  | nil => exact ha
  | cons v vs ih =>
    obtain ⟨hv, hvs⟩ := List.forall_mem_cons.mp hvs
    exact ih hvs (ha.combine op hv)

theorem node_big {op : BigOperator} (var : String) (hrange : range? a b = none) (ha : a.Settled) (hb : b.Settled)
    (hc : c.Settled) : (op.node var a b c).Settled := by
  have hbig : big op var a b c = op.node var a b c := by rw [big_eq, hrange]
  have hparts : ∀ w ∈ [a, b, c], w.Settled := List.forall_mem_cons.mpr ⟨ha, All.pair hb hc⟩
  cases op
  · exact .intro hbig hparts
  · exact .intro hbig hparts

end Settled

/-! ## Substitution gives settled values -/

/-- The way of folding settles what it makes of bodies below the given depth. -/
def Folding.Settles (n : Nat) (fold : Folding) : Prop :=
  ∀ op var a b c, c.bigDepth < n → a.Settled → b.Settled → c.Settled → (fold op var a b c).Settled

/-- What is put in is settled. -/
def ReplacesSettled (pairs : List (Value × Value)) : Prop := ∀ p ∈ pairs, p.2.Settled

theorem ReplacesSettled.withoutSymbol (h : ReplacesSettled pairs) (var : String) :
    ReplacesSettled (withoutSymbol var pairs) := fun p hp => h p (List.mem_of_mem_filter hp)

theorem ReplacesSettled.replacement? (h : ReplacesSettled pairs) (hw : replacement? pairs v = some w) :
    w.Settled := by
  obtain ⟨p, hp, rfl⟩ := Option.map_eq_some_iff.mp hw
  exact h p (List.mem_of_find?_eq_some hp)

section

variable {fold : Folding} {m : Nat}

mutual

/-- Substitution builds every node by its operation, so that the value need not be settled before. -/
theorem settled_replaceWith (hfold : fold.Settles m) (hshallow : fold.Shallow) {pairs : List (Value × Value)}
    (hbelow : ReplacesBelow k pairs) (hpairs : ReplacesSettled pairs) :
    (v : Value) → v.bigDepth + k ≤ m → (replaceWith fold pairs v).Settled := by
  intro v hv
  unfold replaceWith
  cases hr : replacement? pairs v with
  | some w => exact hpairs.replacement? hr
  | none =>
    dsimp only
    match v, hv with
    | .number _, _ | .bool _, _ | .symbol _, _ | .constant _, _ | .set _, _ | .function _, _ => exact .leaf rfl rfl
    | .sum vs, hv => exact .foldl .sum (settled_replaceList hfold hshallow hbelow hpairs vs hv) (.number _)
    | .product vs, hv => exact .foldl .product (settled_replaceList hfold hshallow hbelow hpairs vs hv) (.number _)
    | .application name vs, hv => exact .apply name (settled_replaceList hfold hshallow hbelow hpairs vs hv)
    | .factorial a, hv => exact (settled_replaceWith hfold hshallow hbelow hpairs a hv).fact
    | .absolute a, hv => exact (settled_replaceWith hfold hshallow hbelow hpairs a hv).abs
    | .power a b, hv =>
      obtain ⟨hva, hvb⟩ := max_add_le hv
      exact (settled_replaceWith hfold hshallow hbelow hpairs a hva).pow
        (settled_replaceWith hfold hshallow hbelow hpairs b hvb)
    | .remainder a b, hv =>
      obtain ⟨hva, hvb⟩ := max_add_le hv
      exact (settled_replaceWith hfold hshallow hbelow hpairs a hva).mod
        (settled_replaceWith hfold hshallow hbelow hpairs b hvb)
    | .relation op a b, hv =>
      obtain ⟨hva, hvb⟩ := max_add_le hv
      exact (settled_replaceWith hfold hshallow hbelow hpairs a hva).relate op
        (settled_replaceWith hfold hshallow hbelow hpairs b hvb)
    | .interval a b l r, hv =>
      obtain ⟨hva, hvb⟩ := max_add_le hv
      exact (settled_replaceWith hfold hshallow hbelow hpairs a hva).between
        (settled_replaceWith hfold hshallow hbelow hpairs b hvb) l r
    | .intersection a b, hv =>
      obtain ⟨hva, hvb⟩ := max_add_le hv
      exact (settled_replaceWith hfold hshallow hbelow hpairs a hva).restrict
        (settled_replaceWith hfold hshallow hbelow hpairs b hvb)
    | .limit var a b, hv =>
      obtain ⟨hva, hvb⟩ := max_add_le hv
      exact (settled_replaceWith hfold hshallow hbelow hpairs a hva).limitOf var
        (settled_replaceWith hfold hshallow (hbelow.withoutSymbol var) (hpairs.withoutSymbol var) b hvb)
    | .bigSum var a b c, hv | .bigProduct var a b c, hv =>
      obtain ⟨hab, hvc⟩ := max_add_le hv
      obtain ⟨hva, hvb⟩ := max_add_le hab
      have hdepth := bigDepth_replaceWith_le hshallow (hbelow.withoutSymbol var) c
      exact hfold _ _ _ _ _ (by omega) (settled_replaceWith hfold hshallow hbelow hpairs a hva)
        (settled_replaceWith hfold hshallow hbelow hpairs b hvb)
        (settled_replaceWith hfold hshallow (hbelow.withoutSymbol var) (hpairs.withoutSymbol var) c (by omega))

theorem settled_replaceList (hfold : fold.Settles m) (hshallow : fold.Shallow) {pairs : List (Value × Value)}
    (hbelow : ReplacesBelow k pairs) (hpairs : ReplacesSettled pairs) :
    (vs : List Value) → listBigDepth vs + k ≤ m → ∀ w ∈ replaceList fold pairs vs, w.Settled
  | [], _ => by simp [replaceList]
  | v :: vs, h => by
    obtain ⟨hv, hvs⟩ := max_add_le h
    rw [replaceList]
    exact List.forall_mem_cons.mpr ⟨settled_replaceWith hfold hshallow hbelow hpairs v hv,
      settled_replaceList hfold hshallow hbelow hpairs vs hvs⟩

end

end

/-- Bodies that are folded are less deep than the depth that folding is given. -/
theorem settles_foldAt (depth : Nat) : Folding.Settles depth (foldAt depth) := by
  induction depth with
  | zero => exact fun _ _ _ _ _ h => absurd h (Nat.not_lt_zero _)
  | succ depth ih =>
    intro op var a b c hd ha hb hc
    unfold foldAt
    cases hr : range? a b with
    | none => exact .node_big var hr ha hb hc
    | some ks =>
      have hunit : op.unit.Settled := by cases op <;> exact .number _
      have hks : ∀ v ∈ ks.map (fun k => replaceWith (foldAt depth) [(.symbol var, .int k)] c), v.Settled := by
        refine List.forall_mem_map.mpr fun k _ => ?_
        exact settled_replaceWith ih (shallow_foldAt depth) (replacesBelow_int var k)
          (List.forall_mem_singleton.mpr (.number _)) c (Nat.le_of_lt_succ hd)
      have h := Settled.foldl op hks hunit
      rwa [List.foldl_map] at h

theorem settled_big (op : BigOperator) (var : String) (ha : a.Settled) (hb : b.Settled) (hc : c.Settled) :
    (big op var a b c).Settled := settles_foldAt _ op var a b c (Nat.lt_succ_self _) ha hb hc

theorem settled_replaceAll (hpairs : ReplacesSettled pairs) (v : Value) : (v.replaceAll pairs).Settled := by
  obtain ⟨k, hk⟩ := exists_replacesBelow pairs
  have hfold : Folding.Settles (v.bigDepth + k) big := fun op var a b c _ => settled_big op var
  exact settled_replaceWith hfold shallow_big hk hpairs v le_rfl

theorem settled_call {f : Function} {args : List Value} (hargs : ∀ a ∈ args, a.Settled)
    (h : f.call args = .ok v) : v.Settled := by
  induction f generalizing args v with
  | builtin name =>
    obtain ⟨⟨⟩, -, h⟩ := LR.Grammar.bind_eq_ok h
    cases h
    exact .apply name hargs
  | defined name params body =>
    obtain ⟨⟨⟩, -, h⟩ := LR.Grammar.bind_eq_ok h
    cases h
    exact settled_replaceAll (fun p hp => hargs p.2 (List.of_mem_zip hp).2) body
  | composed outer inner ihouter ihinner =>
    obtain ⟨⟨⟩, -, h⟩ := LR.Grammar.bind_eq_ok h
    obtain ⟨w, hw, h⟩ := LR.Grammar.bind_eq_ok h
    exact ihouter (List.forall_mem_singleton.mpr (ihinner hargs hw)) h

/-! ## Nothing changes -/

/-- Normal and settled, and nowhere a product that fades. -/
structure Stays (v : Value) : Prop where
  normal : v.Normal
  settled : v.Settled
  keeps : v.All fun w => w.fades = false

namespace Stays

theorem part (h : v.Stays) (hw : w ∈ v.operands) : w.Stays := by
  have hparts : w ∈ v.parts := by
    cases v with
    | function => exact nomatch hw
    | _ => exact hw
  exact ⟨h.normal.part hparts, h.settled.part hw, h.keeps.part hw⟩

theorem first (h : v.Stays) (hv : v.operands = a :: ws) : a.Stays := h.part (hv ▸ List.mem_cons_self)

theorem second (h : v.Stays) (hv : v.operands = a :: b :: ws) : b.Stays :=
  h.part (hv ▸ List.mem_cons_of_mem _ List.mem_cons_self)

theorem third (h : v.Stays) (hv : v.operands = a :: b :: c :: ws) : c.Stays :=
  h.part (hv ▸ List.mem_cons_of_mem _ (List.mem_cons_of_mem _ List.mem_cons_self))

end Stays

/-- The replacements are for symbols, and none of these has the property. -/
def Misses (occurs : String → Bool) (pairs : List (Value × Value)) : Prop :=
  ∀ p ∈ pairs, ∃ s, p.1 = .symbol s ∧ occurs s = false

namespace Misses

variable {occurs occurs' : String → Bool}

theorem targets (h : Misses occurs pairs) : Targets pairs := fun p hp =>
  let ⟨s, hs, _⟩ := h p hp
  ⟨s, hs⟩

theorem mono (h : Misses occurs pairs) (hle : ∀ s, occurs' s = true → occurs s = true) : Misses occurs' pairs := by
  intro p hp
  obtain ⟨s, hs, hno⟩ := h p hp
  exact ⟨s, hs, Bool.eq_false_iff.mpr fun hyes => Bool.eq_false_iff.mp hno (hle s hyes)⟩

theorem pair {left right : String → Bool} (h : Misses occurs pairs) (he : ∀ s, occurs s = (left s || right s)) :
    Misses left pairs ∧ Misses right pairs :=
  ⟨h.mono fun s hs => by rw [he, hs, Bool.true_or], h.mono fun s hs => by rw [he, hs, Bool.or_true]⟩

/-- Replacements that remain under a binder miss the body as well. -/
theorem binder {var : String} (h : Misses (fun s => var != s && occurs s) pairs) :
    Misses occurs (withoutSymbol var pairs) := by
  intro p hp
  obtain ⟨hp, hvar⟩ := List.mem_filter.mp hp
  obtain ⟨s, hs, hno⟩ := h p hp
  obtain ⟨target, w⟩ := p
  cases hs
  have hne : (var != s) = true := bne_iff_ne.mpr fun h => bne_iff_ne.mp hvar h.symm
  have hno : (var != s && occurs s) = false := hno
  rw [hne, Bool.true_and] at hno
  exact ⟨s, rfl, hno⟩

theorem replacement? (h : Misses v.containsSymbol pairs) : replacement? pairs v = none := by
  by_cases hv : ∃ s, v = .symbol s
  · obtain ⟨s, rfl⟩ := hv
    refine Option.eq_none_iff_forall_not_mem.mpr fun w hw => ?_
    obtain ⟨t, ht, hno⟩ := h _ (mem_of_replacement? hw)
    cases ht
    exact absurd (beq_self_eq_true s) (Bool.eq_false_iff.mp hno)
  · exact h.targets.replacement?_eq_none fun s hs => hv ⟨s, hs⟩

end Misses

mutual

/-- A value that stays is built anew as itself. -/
theorem replaceWith_eq_self {pairs : List (Value × Value)} :
    (v : Value) → v.Stays → Misses v.containsSymbol pairs → replaceWith big pairs v = v := by
  intro v h hmiss
  unfold replaceWith
  rw [hmiss.replacement?]
  dsimp only
  match v, h, hmiss with
  | .number _, _, _ | .bool _, _, _ | .symbol _, _, _ | .constant _, _, _ | .set _, _, _ | .function _, _, _ => rfl
  | .sum vs, h, hmiss =>
    dsimp only
    rw [replaceList_eq_self vs (fun _ => h.part) hmiss]
    exact foldl_add_eq h.normal
  | .product vs, h, hmiss =>
    dsimp only
    rw [replaceList_eq_self vs (fun _ => h.part) hmiss]
    exact foldl_mul_eq h.normal h.keeps.node
  | .application name vs, h, hmiss =>
    dsimp only
    rw [replaceList_eq_self vs (fun _ => h.part) hmiss]
    exact h.settled.node
  | .factorial a, h, hmiss | .absolute a, h, hmiss =>
    dsimp only
    rw [replaceWith_eq_self a (h.first rfl) hmiss]
    exact h.settled.node
  | .power a b, h, hmiss | .remainder a b, h, hmiss | .relation _ a b, h, hmiss | .interval a b _ _, h, hmiss
  | .intersection a b, h, hmiss =>
    obtain ⟨hma, hmb⟩ : Misses a.containsSymbol pairs ∧ Misses b.containsSymbol pairs := hmiss.pair fun _ => rfl
    dsimp only
    rw [replaceWith_eq_self a (h.first rfl) hma, replaceWith_eq_self b (h.second rfl) hmb]
    exact h.settled.node
  | .limit var a b, h, hmiss =>
    obtain ⟨hma, hmb⟩ : Misses a.containsSymbol pairs ∧ Misses (fun s => var != s && b.containsSymbol s) pairs :=
      hmiss.pair fun _ => rfl
    dsimp only
    rw [replaceWith_eq_self a (h.first rfl) hma, replaceWith_eq_self b (h.second rfl) hmb.binder]
    exact h.settled.node
  | .bigSum var a b c, h, hmiss | .bigProduct var a b c, h, hmiss =>
    obtain ⟨hmab, hmc⟩ : Misses (fun s => a.containsSymbol s || b.containsSymbol s) pairs ∧
      Misses (fun s => var != s && c.containsSymbol s) pairs := hmiss.pair fun _ => rfl
    obtain ⟨hma, hmb⟩ := hmab.pair fun _ => rfl
    dsimp only
    rw [replaceWith_eq_self a (h.first rfl) hma, replaceWith_eq_self b (h.second rfl) hmb,
      replaceWith_eq_self c (h.third rfl) hmc.binder]
    exact h.settled.node

theorem replaceList_eq_self {pairs : List (Value × Value)} :
    (vs : List Value) → (∀ v ∈ vs, v.Stays) → Misses (listContainsSymbol · vs) pairs → replaceList big pairs vs = vs
  | [], _, _ => rfl
  | v :: vs, h, hmiss => by
    obtain ⟨hmv, hmvs⟩ : Misses v.containsSymbol pairs ∧ Misses (listContainsSymbol · vs) pairs :=
      hmiss.pair fun _ => rfl
    rw [replaceList, replaceWith_eq_self v (h v List.mem_cons_self) hmv,
      replaceList_eq_self vs (fun v hv => h v (List.mem_cons_of_mem _ hv)) hmvs]

end

/-- A product that fades is never built anew as itself, even if its factors are. -/
theorem replaceAll_ne_self (h : v.Normal) (hfades : v.fades = true) (hfactors : ∀ f ∈ v.factors, f.Stays) :
    v.replaceAll [] ≠ v := by
  unfold fades at hfades
  split at hfades
  · rename_i c f fs
    have hrow : replaceList big [] (.number c :: f :: fs) = .number c :: f :: fs :=
      replaceList_eq_self _ hfactors fun _ hp => nomatch hp
    show (replaceList big [] (.number c :: f :: fs)).foldl mul one ≠ _
    rw [hrow]
    exact foldl_mul_ne h hfades
  · cases hfades

end Formula.Value
