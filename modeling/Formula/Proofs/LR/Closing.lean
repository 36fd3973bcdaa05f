import Formula.Proofs.LR.Collection
import Formula.Proofs.LR.Rounds

/-!
# The loops over items

The work lists that closures, steps and the collection of states are found by come to their ends, and what they find is
what the operations on numbered items say: `closureOf_eq`, `gotoOf_eq`, `collectStates_eq`. No lookup misses on the way.
With what closures and states are as sets of items, this is `collection_exact`.

A list of items is compared with a set of items by `Lists`. For a closure, every step of the loop takes an item off the
list of work, and whatever it puts there is newly found; there are no more items to find than the grammar has, so that
the items that are still to be found or looked at become fewer (`Work.left`).
-/

namespace Formula.LR

namespace Grammar

variable {g : Grammar}

/-! ## Rows of symbols -/

theorem encoded_getElem? {i : Nat} {p : Production} (hp : g.productions[i]? = some p) :
    g.encoded[i]? = some (p.lhs :: p.rhs) := by
  rw [encoded, List.getElem?_map, hp, Option.map_some]

theorem exists_of_mem_encoded {row : List Nat} (h : row ∈ g.encoded) :
    ∃ p ∈ g.productions, p.lhs :: p.rhs = row :=
  List.mem_map.mp h

theorem exists_of_mem_zipIdx_encoded {row : List Nat} {i : Nat} (h : (row, i) ∈ g.encoded.zipIdx) :
    ∃ p, g.productions[i]? = some p ∧ p.lhs :: p.rhs = row := by
  rw [List.mem_zipIdx_iff_getElem?] at h
  simp only [encoded, List.getElem?_map, Option.map_eq_some_iff] at h
  exact h

theorem mem_zipIdx_encoded {i : Nat} {p : Production} (hp : g.productions[i]? = some p) :
    (p.lhs :: p.rhs, i) ∈ g.encoded.zipIdx := by
  rw [List.mem_zipIdx_iff_getElem?]
  exact encoded_getElem? hp

/-! ## Lists of items -/

theorem mem_items_iff {i d : Nat} : ⟨i, d⟩ ∈ g.items ↔ ∃ p, g.productions[i]? = some p ∧ d ≤ p.rhs.length := by
  simp only [List.mem_iff_getElem?, items_getElem?_iff]
  constructor
  · rintro ⟨n, p, hp, hd, -⟩
    exact ⟨p, hp, hd⟩
  · rintro ⟨p, hp, hd⟩
    exact ⟨_, p, hp, hd, rfl⟩

theorem Holds.mem_items {q : State} {item : Item} (h : g.Holds q item) : item ∈ g.items := by
  obtain ⟨n, hn, -⟩ := h
  exact List.mem_of_getElem? hn

/-- The production of an item, and the symbol behind its dot as it stands in the row. -/
theorem exists_row {item : Item} (h : item ∈ g.items) :
    ∃ p, g.productions[item.production]? = some p ∧ g.encoded[item.production]? = some (p.lhs :: p.rhs) ∧
      item.dot ≤ p.rhs.length ∧ g.next? item = p.rhs[item.dot]? := by
  obtain ⟨p, hp, hd⟩ := mem_items_iff.mp h
  exact ⟨p, hp, encoded_getElem? hp, hd, by rw [next?, hp, Option.bind_some]⟩

theorem key_injective (a b : Item) (h : a.key = b.key) : a = b := by
  cases a
  cases b
  obtain ⟨rfl, rfl⟩ := Prod.mk.inj h
  rfl

/-- The list has the items of the set, in order. -/
structure Lists (l : List Item) (P : Item → Prop) : Prop where
  ordered : Ordered Item.key l
  mem_iff : ∀ item, item ∈ l ↔ P item

theorem Lists.eq {l m : List Item} {P : Item → Prop} (hl : Lists l P) (hm : Lists m P) : l = m :=
  hl.ordered.eq hm.ordered fun item => (hl.mem_iff item).trans (hm.mem_iff item).symm

theorem ordered_items : Ordered Item.key g.items := pairwise_items

theorem lists_itemsOf (q : State) : Lists (g.itemsOf q) (g.Holds q) := by
  constructor
  · have hsub : (g.itemsOf q).Sublist (g.items.zipIdx.map (·.1)) := List.filter_sublist.map _
    rw [List.zipIdx_map_fst] at hsub
    exact ordered_items.sublist hsub
  · intro item
    simp only [itemsOf, List.mem_map, List.mem_filter, Prod.exists, List.mem_zipIdx_iff_getElem?]
    constructor
    · rintro ⟨_, n, ⟨hn, hq⟩, rfl⟩
      exact ⟨n, hn, hq⟩
    · rintro ⟨n, hn, hq⟩
      exact ⟨item, n, ⟨hn, hq⟩, rfl⟩

end Grammar

/-! ## Closures -/

namespace Work

/-- More was found, all of which is still to be looked at. -/
structure Extends (w w' : Work) : Prop where
  found : ∀ item ∈ w.found, item ∈ w'.found
  pending : ∀ item ∈ w.pending, item ∈ w'.pending
  fresh : ∀ item ∈ w'.found, item ∈ w.found ∨ item ∈ w'.pending
  length : w'.found.length + w.pending.length = w.found.length + w'.pending.length

theorem Extends.refl (w : Work) : w.Extends w := ⟨fun _ h => h, fun _ h => h, fun _ h => .inl h, rfl⟩

theorem Extends.trans {w w' w'' : Work} (h : w.Extends w') (h' : w'.Extends w'') : w.Extends w'' := by
  refine ⟨fun k hk => h'.found k (h.found k hk), fun k hk => h'.pending k (h.pending k hk), fun k hk => ?_, ?_⟩
  · rcases h'.fresh k hk with hk | hk
    · exact (h.fresh k hk).imp_right (h'.pending k)
    · exact .inr hk
  · have := h.length
    have := h'.length
    omega

theorem extends_add (w : Work) (item : Item) : w.Extends (w.add item) := by
  rw [add]
  split
  · exact .refl w
  · rename_i hnew
    refine ⟨fun k hk => mem_insertBy.mpr (.inr hk), fun k hk => List.mem_cons_of_mem item hk, fun k hk => ?_, ?_⟩
    · rcases mem_insertBy.mp hk with rfl | hk
      · exact .inr List.mem_cons_self
      · exact .inl hk
    · dsimp only
      rw [length_insertBy hnew, List.length_cons]
      omega

theorem mem_found_add {w : Work} {item k : Item} : k ∈ (w.add item).found ↔ k = item ∨ k ∈ w.found := by
  rw [add]
  split
  · rename_i h
    exact ⟨.inr, fun hk => hk.elim (fun he => he ▸ h) id⟩
  · exact mem_insertBy

theorem mem_pending_add {w : Work} {item k : Item} (h : k ∈ (w.add item).pending) : k = item ∨ k ∈ w.pending := by
  rw [add] at h
  split at h
  · exact .inr h
  · exact List.mem_cons.mp h

/-- What was found is in order and belongs to the closure, and only such items are to be looked at. -/
structure Sound (g : Grammar) (P : Item → Prop) (w : Work) : Prop where
  ordered : Ordered Item.key w.found
  least : ∀ item ∈ w.found, item ∈ g.items ∧ g.LeastClosure P item
  pending : ∀ item ∈ w.pending, item ∈ w.found

variable {g : Grammar} {P : Item → Prop} {w : Work}

theorem Sound.add (h : w.Sound g P) {item : Item} (hi : item ∈ g.items) (hc : g.LeastClosure P item) :
    (w.add item).Sound g P := by
  refine ⟨?_, fun k hk => ?_, fun k hk => mem_found_add.mpr ((mem_pending_add hk).imp_right (h.pending k))⟩
  · rw [Work.add]
    split
    · exact h.ordered
    · exact h.ordered.insertBy Grammar.key_injective item
  · rcases mem_found_add.mp hk with rfl | hk
    · exact ⟨hi, hc⟩
    · exact h.least k hk

/-- All productions of the symbol behind the dot of the item begin in what was found. -/
def Settles (g : Grammar) (w : Work) (k : Item) : Prop :=
  ∀ i p, g.productions[i]? = some p → g.next? k = some p.lhs → ⟨i, 0⟩ ∈ w.found

theorem startOne_eq (w : Work) (symbol i : Nat) (p : Production) :
    startOne symbol w (p.lhs :: p.rhs, i) = some (if p.lhs = symbol then w.add ⟨i, 0⟩ else w) := rfl

/-- The starts of all productions of a symbol are found. -/
theorem exists_startAll (hw : w.Sound g P) {k : Item} {symbol : Nat} (hk : k ∈ w.found)
    (hn : g.next? k = some symbol) :
    ∃ w', startAll g.encoded symbol w = some w' ∧ w'.Sound g P ∧ w.Extends w' ∧ w'.Settles g k := by
  obtain ⟨w', hfold, hw', hext, hdone⟩ := exists_foldlM (l := g.encoded.zipIdx) (f := startOne symbol) (s := w)
    (fun done w' => w'.Sound g P ∧ w.Extends w' ∧
      ∀ row i, (row, i) ∈ done → row[0]? = some symbol → ⟨i, 0⟩ ∈ w'.found)
    (fun done ⟨row, i⟩ w' hrow ⟨hw', hext, hdone⟩ => by
      obtain ⟨p, hp, rfl⟩ := Grammar.exists_of_mem_zipIdx_encoded hrow
      refine ⟨_, startOne_eq w' symbol i p, ?_⟩
      split
      · rename_i hl
        have hmem : ⟨i, 0⟩ ∈ g.items := Grammar.mem_items_iff.mpr ⟨p, hp, Nat.zero_le _⟩
        have hleast : g.LeastClosure P ⟨i, 0⟩ := .start (hw.least k hk).2 (by rw [hn, hl]) hp
        refine ⟨hw'.add hmem hleast, hext.trans (extends_add w' _), fun row j hj hs => ?_⟩
        rcases List.mem_append.mp hj with hj | hj
        · exact mem_found_add.mpr (.inr (hdone row j hj hs))
        · obtain ⟨-, rfl⟩ := Prod.mk.inj (List.mem_singleton.mp hj)
          exact mem_found_add.mpr (.inl rfl)
      · rename_i hl
        refine ⟨hw', hext, fun row j hj hs => ?_⟩
        rcases List.mem_append.mp hj with hj | hj
        · exact hdone row j hj hs
        · obtain ⟨rfl, -⟩ := Prod.mk.inj (List.mem_singleton.mp hj)
          exact absurd (Option.some.inj hs) hl)
    ⟨hw, .refl w, fun _ _ h => absurd h List.not_mem_nil⟩
  refine ⟨w', hfold, hw', hext, fun i p hp hk => ?_⟩
  exact hdone _ i (Grammar.mem_zipIdx_encoded hp) (hk.symm.trans hn)

/-- A closure on the way: what is not to be looked at any more is settled. -/
structure Closing (g : Grammar) (P : Item → Prop) (w : Work) : Prop where
  sound : w.Sound g P
  base : ∀ item, P item → item ∈ w.found
  settled : ∀ k ∈ w.found, k ∈ w.pending ∨ w.Settles g k

/-- The items that are not found or not looked at. -/
def left (g : Grammar) (w : Work) : Nat := g.items.length - w.found.length + w.pending.length

theorem Sound.length_le (h : w.Sound g P) : w.found.length ≤ g.items.length :=
  (List.subperm_of_subset h.ordered.nodup fun k hk => (h.least k hk).1).length_le

/-- Each step looks at one item. -/
theorem Closing.step (hc : g.Checked) (h : w.Closing g P) :
    (∃ w', closureStep g.encoded g.nonterminals w = some (.inl w') ∧ w'.Closing g P ∧ w'.left g < w.left g) ∨
      ∃ l, closureStep g.encoded g.nonterminals w = some (.inr l) ∧ Grammar.Lists l (g.LeastClosure P) := by
  obtain ⟨found, pending⟩ := w
  cases pending with
  | nil =>
    refine .inr ⟨found, rfl, h.sound.ordered, fun item => ⟨fun hi => (h.sound.least item hi).2, fun hi => ?_⟩⟩
    induction hi with
    | base hi => exact h.base _ hi
    | start _ hk hp ih => exact ((h.settled _ ih).resolve_left List.not_mem_nil) _ _ hp hk
  | cons k pending =>
    refine .inl ?_
    have hk : k ∈ found := h.sound.pending k List.mem_cons_self
    have hw : Work.Sound g P ⟨found, pending⟩ :=
      ⟨h.sound.ordered, h.sound.least, fun item hi => h.sound.pending item (List.mem_cons_of_mem k hi)⟩
    obtain ⟨p, hp, hrow, -, hnext⟩ := Grammar.exists_row (h.sound.least k hk).1
    -- whatever the step adds, an item other than `k` is settled or to be looked at, as it was before
    have hsettled : ∀ w' : Work, w'.Sound g P → Work.Extends ⟨found, pending⟩ w' → w'.Settles g k →
        w'.Closing g P ∧ w'.left g < Work.left g ⟨found, k :: pending⟩ := by
      intro w' hw' hext hset
      refine ⟨⟨hw', fun item hi => hext.found item (h.base item hi), fun item hi => ?_⟩, ?_⟩
      · rcases hext.fresh item hi with hi | hi
        · rcases h.settled item hi with hi | hi
          · rcases List.mem_cons.mp hi with rfl | hi
            · exact .inr hset
            · exact .inl (hext.pending item hi)
          · exact .inr fun i p hp hx => hext.found _ (hi i p hp hx)
        · exact .inl hi
      · have := hext.length
        have := hw'.length_le
        have := h.sound.length_le
        simp only [left, List.length_cons] at *
        omega
    cases hx : p.rhs[k.dot]? with
    | none =>
      refine ⟨⟨found, pending⟩, ?_, hsettled _ hw (.refl _) fun i q _ hq => ?_⟩
      · simp [closureStep, hrow, hx]
      · rw [hnext, hx] at hq
        cases hq
    | some symbol =>
      rw [hx] at hnext
      by_cases hs : symbol < g.nonterminals
      · obtain ⟨w', hall, hw', hext, hset⟩ := exists_startAll hw hk hnext
        exact ⟨w', by simp [closureStep, hrow, hx, hs, hall], hsettled w' hw' hext hset⟩
      · refine ⟨⟨found, pending⟩, ?_, hsettled _ hw (.refl _) fun i q hq hl => ?_⟩
        · simp [closureStep, hrow, hx, hs]
        · rw [hnext] at hl
          obtain rfl := Option.some.inj hl
          exact absurd (hc.lhs_lt q (List.mem_of_getElem? hq)) hs

end Work

namespace Grammar

variable {g : Grammar}

/-- A closure is found with a round for each item and one more. -/
theorem exists_closureOf (hc : g.Checked) {rounds : Nat} (hr : g.items.length < rounds) {l : List Item}
    {P : Item → Prop} (hl : Lists l P) (hP : ∀ item, P item → item ∈ g.items) :
    ∃ l', closureOf g.encoded g.nonterminals rounds l = some l' ∧ Lists l' (g.LeastClosure P) := by
  have hsound : Work.Sound g P ⟨l, l.reverse⟩ :=
    ⟨hl.ordered, fun item hi => ⟨hP item ((hl.mem_iff item).mp hi), .base ((hl.mem_iff item).mp hi)⟩,
      fun item hi => List.mem_reverse.mp hi⟩
  have hclosing : Work.Closing g P ⟨l, l.reverse⟩ :=
    ⟨hsound, fun item hi => (hl.mem_iff item).mpr hi, fun k hk => .inl (List.mem_reverse.mpr hk)⟩
  refine exists_iterate (fun w => w.Closing g P) (Work.left g) (fun w hw => hw.step hc) hclosing ?_
  have hle : l.length ≤ g.items.length := hsound.length_le
  rw [Work.left, List.length_reverse]
  dsimp only
  omega

/-! ## Steps -/

theorem moveOver_eq {item : Item} (h : item ∈ g.items) (x : Nat) (moved : List Item) :
    moveOver g.encoded x moved item =
      some (if g.next? item = some x then insertBy Item.key ⟨item.production, item.dot + 1⟩ moved else moved) := by
  obtain ⟨p, -, hrow, -, hnext⟩ := exists_row h
  rw [moveOver, hrow, hnext]
  by_cases hd : item.dot < p.rhs.length
  · rw [List.getElem?_eq_getElem hd]
    by_cases hx : p.rhs[item.dot] = x <;> simp [hd, hx]
  · rw [List.getElem?_eq_none (Nat.le_of_not_lt hd)]
    simp [hd]

theorem exists_moved (q : State) (x : Nat) :
    ∃ l, (g.itemsOf q).foldlM (moveOver g.encoded x) [] = some l ∧ Lists l (g.Moved (g.Holds q) x) := by
  obtain ⟨l, hfold, hl⟩ := exists_foldlM (l := g.itemsOf q) (f := moveOver g.encoded x) (s := [])
    (fun done l => Lists l fun item => ∃ k ∈ done, g.next? k = some x ∧ item = ⟨k.production, k.dot + 1⟩)
    (fun done k l hk hl => by
      refine ⟨_, moveOver_eq (((lists_itemsOf q).mem_iff k).mp hk).mem_items x l, ?_⟩
      split
      · rename_i hx
        refine ⟨hl.ordered.insertBy key_injective _, fun item => ?_⟩
        simp only [mem_insertBy, hl.mem_iff, List.mem_append, List.mem_singleton, or_and_right, exists_or,
          exists_eq_left, hx, true_and]
        exact or_comm
      · rename_i hx
        refine ⟨hl.ordered, fun item => ?_⟩
        simp only [hl.mem_iff, List.mem_append, List.mem_singleton, or_and_right, exists_or, exists_eq_left, hx,
          false_and, or_false])
    ⟨List.Pairwise.nil, by simp⟩
  refine ⟨l, hfold, hl.ordered, fun item => ?_⟩
  simp only [hl.mem_iff, (lists_itemsOf q).mem_iff]
  rfl

section

variable (hc : g.Checked) {rounds : Nat} (hr : g.items.length < rounds)

include hc hr

/-- The closure of the items of a state is found. -/
theorem closureOf_eq (q : State) :
    closureOf g.encoded g.nonterminals rounds (g.itemsOf q) = some (g.itemsOf (g.itemTable.close q)) := by
  obtain ⟨l, hclose, hl⟩ := exists_closureOf hc hr (lists_itemsOf q) fun item => Holds.mem_items
  have he : Lists (g.itemsOf (g.itemTable.close q)) (g.LeastClosure (g.Holds q)) :=
    ⟨(lists_itemsOf _).ordered, fun item => ((lists_itemsOf _).mem_iff item).trans
      ((holds_close_iff hc.nonterminals_le).trans (closure_iff hc))⟩
  rw [hclose, he.eq hl]

/-- The items after a symbol are those of the state after it. -/
theorem gotoOf_eq (q : State) (x : Nat) :
    gotoOf g.encoded g.nonterminals rounds (g.itemsOf q) x = some (g.itemsOf (g.after q x)) := by
  obtain ⟨moved, hfold, hmoved⟩ := exists_moved q x
  have hitems : ∀ item, g.Moved (g.Holds q) x item → item ∈ g.items :=
    fun item h => (holds_next_iff.mpr h).mem_items
  obtain ⟨l, hclose, hl⟩ := exists_closureOf hc hr hmoved hitems
  have he : Lists (g.itemsOf (g.after q x)) (g.LeastClosure (g.Moved (g.Holds q) x)) :=
    ⟨(lists_itemsOf _).ordered, fun item => ((lists_itemsOf _).mem_iff item).trans (holds_after_iff hc)⟩
  rw [gotoOf, hfold, he.eq hl]
  exact hclose

/-- The closure of the start of a goal has the items of its start state. -/
theorem closureOf_goal {goal : Nat} (hg : goal ∈ g.goals) :
    closureOf g.encoded g.nonterminals rounds [⟨goal, 0⟩] = some (g.itemsOf (g.start g.itemTable goal)) := by
  obtain ⟨p, -, hp, -⟩ := hc.goal goal hg
  have hone : Lists [⟨goal, 0⟩] (· = ⟨goal, 0⟩) := ⟨List.pairwise_singleton _ _, fun item => List.mem_singleton⟩
  obtain ⟨l, hclose, hl⟩ := exists_closureOf hc hr hone fun item hi => by
    rw [hi]
    exact mem_items_iff.mpr ⟨p, hp, Nat.zero_le _⟩
  have he : Lists (g.itemsOf (g.start g.itemTable goal)) (g.LeastClosure (· = ⟨goal, 0⟩)) :=
    ⟨(lists_itemsOf _).ordered, fun item => ((lists_itemsOf _).mem_iff item).trans
      ((holds_start_iff hc.nonterminals_le hp).trans (closure_iff hc))⟩
  rw [hclose, he.eq hl]

end

/-! ## The collection -/

/-- A state is known by the list of its items. -/
theorem itemsOf_injective {q s : State} (hq : Below g.items.length q) (hs : Below g.items.length s)
    (h : g.itemsOf q = g.itemsOf s) : q = s :=
  eq_of_holds hq hs fun item => by rw [← (lists_itemsOf q).mem_iff, h, (lists_itemsOf s).mem_iff]

theorem isEmpty_itemsOf {q : State} (hq : Below g.items.length q) : (g.itemsOf q).isEmpty = q.isEmpty := by
  rw [Bool.eq_iff_iff, List.isEmpty_iff, ← not_iff_not, not_isEmpty_iff]
  constructor
  · intro h
    obtain ⟨item, hi⟩ := List.exists_mem_of_ne_nil _ h
    obtain ⟨n, -, hn⟩ := ((lists_itemsOf q).mem_iff item).mp hi
    exact ⟨n, hn⟩
  · rintro ⟨n, hn⟩
    have hi := ((lists_itemsOf q).mem_iff _).mpr ⟨n, List.getElem?_eq_getElem (hq n hn), hn⟩
    exact List.ne_nil_of_mem hi

theorem insertNew_map {known : List State} (hk : ∀ q ∈ known, Below g.items.length q) {s : State}
    (hs : Below g.items.length s) :
    insertNew (known.map g.itemsOf) (g.itemsOf s) = (appendNew known [s]).map g.itemsOf := by
  have hmem : (known.map g.itemsOf).contains (g.itemsOf s) = known.contains s := by
    rw [Bool.eq_iff_iff, List.contains_iff_mem, List.contains_iff_mem, List.mem_map]
    constructor
    · rintro ⟨q, hq, he⟩
      rwa [← itemsOf_injective (hk q hq) hs he]
    · exact fun h => ⟨s, h, rfl⟩
  rw [insertNew, hmem, appendNew, List.foldl_cons, List.foldl_nil]
  split
  · rfl
  · rw [List.map_append]
    rfl

theorem below_appendNew {known found : List State} (hk : ∀ q ∈ known, Below g.items.length q)
    (hf : ∀ q ∈ found, Below g.items.length q) : ∀ q ∈ appendNew known found, Below g.items.length q :=
  fun q hq => (mem_appendNew.mp hq).elim (hk q) (hf q)

theorem appendNew_cons (known : List State) (s : State) (found : List State) :
    appendNew known (s :: found) = appendNew (appendNew known [s]) found := rfl

section

variable (hc : g.Checked) {rounds : Nat} (hr : g.items.length < rounds)

include hc hr

theorem foldlM_starts (goals : List Nat) (hg : ∀ goal ∈ goals, goal ∈ g.goals) {known : List State}
    (hk : ∀ q ∈ known, Below g.items.length q) :
    goals.foldlM (addGoal g.encoded g.nonterminals rounds) (known.map g.itemsOf) =
      some ((appendNew known (goals.map (g.start g.itemTable))).map g.itemsOf) := by
  induction goals generalizing known with
  | nil => rfl
  | cons goal goals ih =>
    have hs := below_start hc.nonterminals_le goal
    rw [List.foldlM_cons, addGoal, closureOf_goal hc hr (hg goal List.mem_cons_self), List.map_cons, appendNew_cons]
    simp only [Option.bind_eq_bind, Option.bind_some, Option.pure_def, insertNew_map hk hs]
    refine ih (fun n hn => hg n (List.mem_cons_of_mem goal hn)) (below_appendNew hk fun q hq => ?_)
    rwa [List.mem_singleton.mp hq]

/-- The sets after some symbols are added as the states after them are. -/
theorem foldlM_gotos (q : State) (symbols : List Nat) {known : List State}
    (hk : ∀ q ∈ known, Below g.items.length q) :
    symbols.foldlM (addGoto g.encoded g.nonterminals rounds (g.itemsOf q)) (known.map g.itemsOf) =
      some ((appendNew known ((symbols.map (g.after q)).filter (!·.isEmpty))).map g.itemsOf) := by
  induction symbols generalizing known with
  | nil => rfl
  | cons x symbols ih =>
    have hs := below_after hc.nonterminals_le q x
    rw [List.foldlM_cons, addGoto, gotoOf_eq hc hr, List.map_cons, List.filter_cons]
    simp only [Option.bind_eq_bind, Option.bind_some, Option.pure_def, isEmpty_itemsOf hs, insertNew_map hk hs]
    cases (g.after q x).isEmpty with
    | true => exact ih hk
    | false =>
      refine (ih (below_appendNew hk fun s hs' => ?_)).trans rfl
      rwa [List.mem_singleton.mp hs']

theorem visitStep_of_getElem? {states : List State} (hb : ∀ q ∈ states, Below g.items.length q) {visited : Nat}
    {q : State} (hq : states[visited]? = some q) :
    visitStep g.encoded g.nonterminals g.symbols rounds ⟨states.map g.itemsOf, visited⟩ =
      some (.inl ⟨(appendNew states ((g.itemTable.gotos q).filter (!·.isEmpty))).map g.itemsOf, visited + 1⟩) := by
  have hlt : visited < states.length := (List.getElem?_eq_some_iff.mp hq).1
  have hgotos : g.itemTable.gotos q = (List.range g.symbols).map (g.after q) := by
    rw [ItemTable.gotos, itemTable, List.map_map]
    rfl
  rw [visitStep, if_pos (by rwa [List.length_map]), List.getElem?_map, hq, hgotos]
  simp only [Option.map_some, Option.bind_eq_bind, Option.bind_some, foldlM_gotos hc hr q _ hb, Option.pure_def]

omit hc hr in
theorem visitStep_of_length_le {states : List State} {visited : Nat} (h : states.length ≤ visited) :
    visitStep g.encoded g.nonterminals g.symbols rounds ⟨states.map g.itemsOf, visited⟩ =
      some (.inr (states.map g.itemsOf)) := by
  rw [visitStep, if_neg]
  rw [List.length_map]
  exact Nat.not_lt.mpr h

/-- The visits find what the search for states finds, if it finds no more states than it visits. -/
theorem iterate_visitStep {fuel visited visits : Nat} {states : List State} (hb : ∀ q ∈ states, Below g.items.length q)
    (hl : (explore g.itemTable fuel visited states).length ≤ visited + fuel) (hv : fuel < visits) :
    iterate (visitStep g.encoded g.nonterminals g.symbols rounds) visits ⟨states.map g.itemsOf, visited⟩ =
      some ((explore g.itemTable fuel visited states).map g.itemsOf) := by
  induction fuel generalizing visited visits states with
  | zero =>
    obtain ⟨visits, rfl⟩ : ∃ n, visits = n + 1 := ⟨visits - 1, by omega⟩
    rw [explore, Nat.add_zero] at hl
    rw [iterate, visitStep_of_length_le hl]
    rfl
  | succ fuel ih =>
    obtain ⟨visits, rfl⟩ : ∃ n, visits = n + 1 := ⟨visits - 1, by omega⟩
    rw [explore] at hl ⊢
    cases hq : states[visited]? with
    | none =>
      rw [iterate, visitStep_of_length_le (List.getElem?_eq_none_iff.mp hq)]
      rfl
    | some q =>
      rw [hq] at hl
      dsimp only at hl
      rw [iterate, visitStep_of_getElem? hc hr hb hq]
      refine ih (below_appendNew hb fun s hs => ?_) (by rwa [Nat.add_right_comm, Nat.add_assoc]) (by omega)
      exact below_gotos hc.nonterminals_le q s (List.mem_filter.mp hs).1

/-- The collection is found with a round for every set of items and one more. -/
theorem collectStates_eq (hs : 2 ^ g.items.length < rounds) :
    collectStates g.encoded g.nonterminals g.symbols g.goals rounds = some ((g.states g.itemTable).map g.itemsOf) := by
  have hnone : ∀ q ∈ ([] : List State), Below g.items.length q := fun _ h => absurd h List.not_mem_nil
  have hstarts := foldlM_starts hc hr g.goals (fun _ h => h) hnone
  rw [List.map_nil] at hstarts
  rw [collectStates, hstarts]
  refine iterate_visitStep hc hr (below_appendNew hnone fun q hq => ?_) ?_ hs
  · obtain ⟨goal, -, rfl⟩ := List.mem_map.mp hq
    exact below_start hc.nonterminals_le goal
  · rw [Nat.zero_add]
    exact length_states_le hc

end

/-- A closure is the least set that has the items and, with every item whose dot stands before a nonterminal, the starts
of its productions. The states are the sets that are reached from the goals and not empty, each of them once, so that
every symbol with something after it leads to the number of a state. The search for them ends when it has visited as
many states as there are. The work lists come to their ends with the same closures, steps and states. -/
theorem collection_exact (hb : g.build = .ok g) :
    (∀ items : State, IsLeast {J | g.itemSet items ⊆ J ∧ g.IsClosed J} (g.itemSet (g.itemTable.close items))) ∧
      g.collection.Nodup ∧ (∀ I, I ∈ g.collection ↔ g.Reached I ∧ I.Nonempty) ∧
      (∀ q ∈ g.states g.itemTable, ∀ x < g.symbols, (g.goto (g.itemSet q) x).Nonempty →
        ∃ n, g.automaton.number? (g.after q x) = some n ∧ g.collection[n]? = some (g.goto (g.itemSet q) x)) ∧
      (∀ fuel ≥ g.collection.length,
        explore g.itemTable fuel 0 (appendNew [] (g.goals.map (g.start g.itemTable))) = g.states g.itemTable) ∧
      ∃ bound, ∀ rounds ≥ bound,
        (∀ q, closureOf g.encoded g.nonterminals rounds (g.itemsOf q) = some (g.itemsOf (g.itemTable.close q))) ∧
        (∀ q x, gotoOf g.encoded g.nonterminals rounds (g.itemsOf q) x = some (g.itemsOf (g.after q x))) ∧
        collectStates g.encoded g.nonterminals g.symbols g.goals rounds =
          some ((g.states g.itemTable).map g.itemsOf) := by
  have hc := checked_of_build hb
  refine ⟨fun items => ?_, nodup_collection hc, fun I => mem_collection_iff hc,
    fun q hq x hx => exists_number_of_goto hc hq hx, fun fuel hf => ?_, 2 ^ g.items.length + 1, fun rounds hr => ?_⟩
  · rw [itemSet_close hc]
    exact isLeast_closure hc _
  · rw [collection, List.length_map] at hf
    exact explore_eq_of_length_le (length_states_le hc) hf
  · have hitems : g.items.length < rounds := Nat.lt_trans Nat.lt_two_pow_self hr
    exact ⟨closureOf_eq hc hitems, gotoOf_eq hc hitems, collectStates_eq hc hitems hr⟩

/-- In the grammar of sums, a set is reached behind a sum and a sign, where a number may begin. -/
theorem collection_sums :
    sums.build = .ok sums ∧ sums.collection.length = 5 ∧
      (let I := sums.goto (sums.goto (sums.closure {⟨0, 0⟩}) 1) 3
       I ∈ sums.collection ∧ (⟨2, 0⟩ : Item) ∈ I) := by
  have hb : sums.build = .ok sums := by decide
  refine ⟨hb, by rw [collection, List.length_map]; decide, ?_⟩
  dsimp only
  -- the dot moves over the sum, and then over the sign
  have hgoal : (⟨0, 0⟩ : Item) ∈ sums.closure {⟨0, 0⟩} := .base rfl
  have hsum : (⟨1, 0⟩ : Item) ∈ sums.closure {⟨0, 0⟩} :=
    .start (p := ⟨1, [1, 3, 1], none⟩) hgoal (by decide) (by decide)
  have hsign : (⟨1, 2⟩ : Item) ∈ sums.goto (sums.goto (sums.closure {⟨0, 0⟩}) 1) 3 :=
    .base ⟨⟨1, 1⟩, .base ⟨⟨1, 0⟩, hsum, by decide, rfl⟩, by decide, rfl⟩
  obtain ⟨-, -, hmem, -⟩ := collection_exact hb
  refine ⟨(hmem _).mpr ⟨?_, _, hsign⟩, ?_⟩
  · exact .goto (.goto (.start (by decide)) (by decide)) (by decide)
  · exact .start (p := ⟨1, [2], none⟩) hsign (by decide) (by decide)

end Grammar

end Formula.LR
