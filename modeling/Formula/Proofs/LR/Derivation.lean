import Mathlib.Algebra.Order.BigOperators.Group.List
import Mathlib.Algebra.Order.Ring.Nat
import Mathlib.Logic.Relation
import Formula.Proofs.LR.Grammar

/-!
# Derivations

What the productions of a grammar say about rows of symbols, apart from any parser:

* `Derives`: a row turns into another by replacing left-hand sides by right-hand sides, anywhere and in
  any order;
* `Yields`: the same for a row of terminals, read off the row from left to right, so that proofs can follow
  the phrases (`Derives.yields`);
* `Rightmost`: a derivation that always replaces the last nonterminal, with the numbers of its
  productions. A shift-reduce parser finds these numbers from the last to the first.
-/

namespace Formula.LR.Grammar

variable (g : Grammar)

/-- A symbol that no production replaces. -/
def IsTerminal (symbol : Nat) : Prop := g.nonterminals ≤ symbol

instance (symbol : Nat) : Decidable (g.IsTerminal symbol) :=
  inferInstanceAs (Decidable (g.nonterminals ≤ symbol))

/-- One left-hand side in a row is replaced by its right-hand side. -/
inductive Produces : List Nat → List Nat → Prop where
  | intro {p : Production} (hp : p ∈ g.productions) (before after : List Nat) :
      Produces (before ++ p.lhs :: after) (before ++ p.rhs ++ after)

/-- Any number of replacements. -/
def Derives : List Nat → List Nat → Prop := Relation.ReflTransGen g.Produces

/-- The row stands for the terminals: each of its symbols is a terminal itself, or the left-hand side of a
production whose right-hand side stands for a part of them. -/
inductive Yields : List Nat → List Nat → Prop where
  | nil : Yields [] []
  | terminal {a : Nat} {row word : List Nat} (ha : g.IsTerminal a) (h : Yields row word) :
      Yields (a :: row) (a :: word)
  | node {p : Production} {row phrase word : List Nat} (hp : p ∈ g.productions)
      (hr : Yields p.rhs phrase) (h : Yields row word) : Yields (p.lhs :: row) (phrase ++ word)

/-- A derivation that replaces the last nonterminal at each step, by the productions with the given
numbers. -/
inductive Rightmost : List Nat → List Nat → List Nat → Prop where
  | refl (row : List Nat) : Rightmost row [] row
  | step {number : Nat} {p : Production} {before after numbers word : List Nat}
      (hp : g.productions[number]? = some p) (ha : ∀ a ∈ after, g.IsTerminal a)
      (h : Rightmost (before ++ p.rhs ++ after) numbers word) :
      Rightmost (before ++ p.lhs :: after) (number :: numbers) word

/-! ## Derivations side by side -/

variable {g}

theorem Derives.trans {r s t : List Nat} (h : g.Derives r s) (h' : g.Derives s t) : g.Derives r t :=
  Relation.ReflTransGen.trans h h'

/-- A left-hand side derives what its production has on the right. -/
theorem Derives.production {p : Production} (hp : p ∈ g.productions) : g.Derives [p.lhs] p.rhs := by
  have h := Produces.intro hp [] []
  rw [List.nil_append, List.nil_append, List.append_nil] at h
  exact .single h

theorem Produces.between {r s : List Nat} (h : g.Produces r s) (before after : List Nat) :
    g.Produces (before ++ r ++ after) (before ++ s ++ after) := by
  obtain ⟨hp, u, v⟩ := h
  have := Produces.intro hp (before ++ u) (v ++ after)
  simpa only [List.append_assoc, List.cons_append] using this

theorem Derives.between {r s : List Nat} (h : g.Derives r s) (before after : List Nat) :
    g.Derives (before ++ r ++ after) (before ++ s ++ after) := by
  induction h with
  | refl => exact .refl
  | tail _ hrs ih => exact ih.tail (hrs.between before after)

/-- What two rows derive, they derive side by side. -/
theorem Derives.append {r s u v : List Nat} (hr : g.Derives r u) (hs : g.Derives s v) :
    g.Derives (r ++ s) (u ++ v) := by
  have h₁ := hr.between [] s
  have h₂ := hs.between u []
  rw [List.nil_append, List.nil_append] at h₁
  rw [List.append_nil, List.append_nil] at h₂
  exact h₁.trans h₂

/-! ## From derivations to phrases -/

theorem Yields.refl {word : List Nat} (h : ∀ a ∈ word, g.IsTerminal a) : g.Yields word word := by
  induction word with
  | nil => exact .nil
  | cons a word ih =>
    exact .terminal (h a List.mem_cons_self) (ih fun b hb => h b (List.mem_cons_of_mem a hb))

theorem Yields.append {r s u v : List Nat} (hr : g.Yields r u) (hs : g.Yields s v) :
    g.Yields (r ++ s) (u ++ v) := by
  induction hr with
  | nil => exact hs
  | terminal ha _ ih => exact .terminal ha ih
  | node hp hr _ _ ih =>
    rw [List.append_assoc]
    exact .node hp hr ih

/-- The terminals below two rows fall into those below each. -/
theorem Yields.split {r s w : List Nat} (h : g.Yields (r ++ s) w) :
    ∃ u v, w = u ++ v ∧ g.Yields r u ∧ g.Yields s v := by
  induction r generalizing w with
  | nil => exact ⟨[], w, rfl, .nil, h⟩
  | cons x r ih =>
    cases h with
    | terminal ha h =>
      obtain ⟨u, v, rfl, hu, hv⟩ := ih h
      exact ⟨x :: u, v, rfl, .terminal ha hu, hv⟩
    | node hp hr h =>
      obtain ⟨u, v, rfl, hu, hv⟩ := ih h
      exact ⟨_ ++ u, v, (List.append_assoc ..).symm, .node hp hr hu, hv⟩

/-- A terminal in front of a row stands for itself. -/
theorem Yields.of_terminal (hc : g.Checked) {a : Nat} (ha : g.IsTerminal a) {row word : List Nat}
    (h : g.Yields (a :: row) word) : ∃ rest, word = a :: rest ∧ g.Yields row rest := by
  cases h with
  | terminal _ h => exact ⟨_, rfl, h⟩
  | node hp _ _ => exact absurd (hc.lhs_lt _ hp) (Nat.not_lt_of_le ha)

theorem Produces.yields {r s w : List Nat} (hrs : g.Produces r s) (h : g.Yields s w) : g.Yields r w := by
  obtain ⟨hp, before, after⟩ := hrs
  obtain ⟨u, v, rfl, hu, hv⟩ := h.split
  obtain ⟨u₁, u₂, rfl, hu₁, hu₂⟩ := hu.split
  rw [List.append_assoc]
  exact hu₁.append (.node hp hu₂ hv)

/-- Whatever the order of the replacements, what is derived in the end can be read from left to right. -/
theorem Derives.yields {row word : List Nat} (h : g.Derives row word)
    (hw : ∀ a ∈ word, g.IsTerminal a) : g.Yields row word := by
  induction h using Relation.ReflTransGen.head_induction_on with
  | refl => exact .refl hw
  | head hrs _ ih => exact hrs.yields ih

/-- What stands for terminals derives them. -/
theorem Yields.derives {row word : List Nat} (h : g.Yields row word) : g.Derives row word := by
  induction h with
  | nil => exact .refl
  | @terminal a _ _ _ _ ih => exact Derives.append (r := [a]) .refl ih
  | node hp _ _ ihr ih => exact ((Derives.production hp).trans ihr).append ih

theorem Yields.isTerminal {row word : List Nat} (h : g.Yields row word) : ∀ a ∈ word, g.IsTerminal a := by
  induction h with
  | nil => simp
  | terminal ha _ ih => exact List.forall_mem_cons.mpr ⟨ha, ih⟩
  | node _ _ _ ihr ih => exact List.forall_mem_append.mpr ⟨ihr, ih⟩

/-! ## What derivations preserve -/

theorem Derives.lt_symbols {row word : List Nat} (h : g.Derives row word) (hc : g.Checked)
    (hrow : ∀ a ∈ row, a < g.symbols) : ∀ a ∈ word, a < g.symbols := by
  induction h with
  | refl => exact hrow
  | tail _ hp ih =>
    obtain ⟨hp, before, after⟩ := hp
    intro a ha
    simp only [List.mem_append] at ha
    rcases ha with (ha | ha) | ha
    · exact ih a (List.mem_append_left _ ha)
    · exact hc.rhs_lt _ hp a ha
    · exact ih a (List.mem_append_right _ (List.mem_cons_of_mem _ ha))

theorem Rightmost.derives {row numbers word : List Nat} (h : g.Rightmost row numbers word) : g.Derives row word := by
  induction h with
  | refl => exact .refl
  | step hp _ _ ih => exact .head (.intro (List.mem_of_getElem? hp) ..) ih

/-- A symbol that no production introduces was there from the start. -/
theorem Rightmost.mem_of_mem {x : Nat} (hx : ∀ p ∈ g.productions, x ∉ p.rhs) {row numbers word : List Nat}
    (h : g.Rightmost row numbers word) (hm : x ∈ word) : x ∈ row := by
  induction h with
  | refl => exact hm
  | step hp _ _ ih =>
    have := ih hm
    simp only [List.mem_append] at this
    simp only [List.mem_append, List.mem_cons]
    rcases this with (h | h) | h
    · exact .inl h
    · exact absurd h (hx _ (List.mem_of_getElem? hp))
    · exact .inr (.inr h)

/-- With weights by which every right-hand side is heavier than its left-hand side, a derivation has no more steps
than weight to gain. -/
theorem Rightmost.length_le (w : Nat → Nat) (hw : ∀ p ∈ g.productions, w p.lhs < (p.rhs.map w).sum)
    {row numbers word : List Nat} (h : g.Rightmost row numbers word) :
    numbers.length + (row.map w).sum ≤ (word.map w).sum := by
  induction h with
  | refl => exact Nat.le_of_eq (Nat.zero_add _)
  | step hp _ _ ih =>
    have := hw _ (List.mem_of_getElem? hp)
    simp only [List.map_append, List.sum_append] at ih
    simp only [List.length_cons, List.map_append, List.map_cons, List.sum_append, List.sum_cons]
    omega

/-- With weights up to `k`, it has no more than `k` steps for each symbol of its result. -/
theorem Rightmost.length_le_mul {w : Nat → Nat} {k : Nat}
    (hw : ∀ p ∈ g.productions, w p.lhs < (p.rhs.map w).sum) (hk : ∀ x, w x ≤ k) {row numbers word : List Nat}
    (h : g.Rightmost row numbers word) : numbers.length ≤ k * word.length := by
  have hsteps := h.length_le w hw
  have hload := List.sum_le_card_nsmul (word.map w) k (by simp [hk])
  rw [List.length_map, nsmul_eq_mul, Nat.cast_id, Nat.mul_comm] at hload
  omega

end Formula.LR.Grammar
