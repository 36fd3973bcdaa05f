import Formula.Proofs.LR.Derivation
import Formula.Proofs.LR.Stack

/-!
# What is on the stack can be completed

An item is valid for a row of symbols if the row, what the item still expects, and some terminals behind it are derived
from the symbol of the goal (`Valid`). In a grammar in which every nonterminal stands for some text, closures and steps
hand this on (`Valid.closure`, `Valid.advance`), so that every item of the top state is valid for the row on the stack
(`Stacked.valid`). The state has an item, and therefore the row can be completed to a sentence
(`Stacked.exists_derives`), whatever conflicts the tables have.
-/

namespace Formula.LR.Grammar

variable (g : Grammar)

/-- A row of terminals that the symbol derives. -/
structure IsSentence (x : Nat) (word : List Nat) : Prop where
  derives : g.Derives [x] word
  isTerminal : ∀ a ∈ word, g.IsTerminal a

/-- Every nonterminal derives a row of terminals. -/
def Productive : Prop := ∀ a < g.nonterminals, ∃ word, g.IsSentence a word

/-- The row, what stands behind the dot of the item, and some terminals are derived from the symbol. -/
def Valid (x : Nat) (row : List Nat) (item : Item) : Prop :=
  ∃ p, g.productions[item.production]? = some p ∧
    ∃ word, (∀ a ∈ word, g.IsTerminal a) ∧ g.Derives [x] (row ++ (p.rhs.drop item.dot ++ word))

variable {g} {x : Nat} {row : List Nat}

theorem IsSentence.terminal {a : Nat} (ha : g.IsTerminal a) : g.IsSentence a [a] :=
  ⟨.refl, fun _ hb => List.mem_singleton.mp hb ▸ ha⟩

/-- Every row derives a row of terminals. -/
theorem Productive.exists_word (h : g.Productive) (row : List Nat) :
    ∃ word, g.Derives row word ∧ ∀ a ∈ word, g.IsTerminal a := by
  induction row with
  | nil => exact ⟨[], .refl, by simp⟩
  | cons a row ih =>
    obtain ⟨rest, hrest, hterminal⟩ := ih
    obtain ⟨word, hword⟩ : ∃ word, g.IsSentence a word :=
      if ha : g.IsTerminal a then ⟨[a], .terminal ha⟩ else h a (Nat.lt_of_not_le ha)
    exact ⟨word ++ rest, hword.derives.append (s := row) hrest,
      List.forall_mem_append.mpr ⟨hword.isTerminal, hterminal⟩⟩

namespace Valid

/-- The row of a valid item can be completed. -/
theorem exists_derives (hg : g.Productive) {item : Item} (h : g.Valid x row item) :
    ∃ word, (∀ a ∈ word, g.IsTerminal a) ∧ g.Derives [x] (row ++ word) := by
  obtain ⟨p, -, word, hword, hd⟩ := h
  obtain ⟨front, hfront, hterminal⟩ := hg.exists_word (p.rhs.drop item.dot)
  exact ⟨front ++ word, List.forall_mem_append.mpr ⟨hterminal, hword⟩,
    hd.trans (Derives.append (r := row) .refl (hfront.append .refl))⟩

/-- What may begin behind the dot of a valid item is valid for the same row. -/
theorem start (hg : g.Productive) {k : Item} {i : Nat} {p : Production} (h : g.Valid x row k)
    (hk : g.next? k = some p.lhs) (hp : g.productions[i]? = some p) : g.Valid x row ⟨i, 0⟩ := by
  obtain ⟨q, hq, word, hword, hd⟩ := h
  rw [next?, hq, Option.bind_some] at hk
  obtain ⟨rest, hrest, hterminal⟩ := hg.exists_word (q.rhs.drop (k.dot + 1))
  refine ⟨p, hp, rest ++ word, List.forall_mem_append.mpr ⟨hterminal, hword⟩, hd.trans ?_⟩
  obtain ⟨hlt, hget⟩ := List.getElem?_eq_some_iff.mp hk
  rw [List.drop_eq_getElem_cons hlt, hget, List.drop_zero]
  have hbehind : g.Derives (p.lhs :: q.rhs.drop (k.dot + 1)) (p.rhs ++ rest) :=
    Derives.append (r := [p.lhs]) (.production (List.mem_of_getElem? hp)) hrest
  rw [← List.append_assoc p.rhs]
  exact Derives.append (r := row) .refl (hbehind.append .refl)

theorem closure (hg : g.Productive) {P : Item → Prop} (hP : ∀ k, P k → g.Valid x row k) {item : Item}
    (h : g.LeastClosure P item) : g.Valid x row item := by
  induction h with
  | base h => exact hP _ h
  | start _ hk hp ih => exact ih.start hg hk hp

/-- When the dot moves over a symbol, the symbol joins the row. -/
theorem advance {k : Item} {a : Nat} (h : g.Valid x row k) (hk : g.next? k = some a) :
    g.Valid x (row ++ [a]) ⟨k.production, k.dot + 1⟩ := by
  obtain ⟨q, hq, word, hword, hd⟩ := h
  rw [next?, hq, Option.bind_some] at hk
  obtain ⟨hlt, hget⟩ := List.getElem?_eq_some_iff.mp hk
  rw [List.drop_eq_getElem_cons hlt, hget] at hd
  exact ⟨q, hq, word, hword, by simpa using hd⟩

end Valid

section

variable (ha : g.Augmented) (hg : g.Productive) {bottom goal : Nat}
  (hb : (g.states g.itemTable)[bottom]? = some (g.start g.itemTable goal)) {r : Production}
  (hr : g.productions[goal]? = some r)
  (hx : r.rhs = [x])

include ha hg hb hr hx

/-- Every item of the top state is valid for the row on the stack. -/
theorem Stacked.valid {states row : List Nat} (h : g.Stacked bottom states row) {q : State}
    (hq : (g.states g.itemTable)[states.headD 0]? = some q) {item : Item} (hi : g.Holds q item) :
    g.Valid x row.reverse item := by
  have hc := ha.checked
  induction h generalizing q item with
  | start =>
    obtain rfl := Option.some.inj (hb.symm.trans hq)
    refine Valid.closure hg ?_ ((closure_iff hc).mp ((holds_start_iff hc.nonterminals_le hr).mp hi))
    rintro k rfl
    exact ⟨r, hr, [], by simp, by rw [hx]; exact .refl⟩
  | push _ hbelow hn ih =>
    obtain rfl := Option.some.inj (hn.symm.trans hq)
    refine Valid.closure hg ?_ ((closure_iff hc).mp ((holds_advance_iff hc.nonterminals_le).mp hi))
    rintro _ ⟨k, hk, hnext, rfl⟩
    rw [List.reverse_cons]
    exact (ih hbelow hk).advance hnext

/-- The row on a stack can be completed. -/
theorem Stacked.exists_derives {states row : List Nat} (h : g.Stacked bottom states row) :
    ∃ word, (∀ a ∈ word, g.IsTerminal a) ∧ g.Derives [x] (row.reverse ++ word) := by
  obtain ⟨q, hq⟩ := h.exists_top hb
  have hm := List.mem_of_getElem? hq
  obtain ⟨n, hn⟩ := not_isEmpty_iff.mp (Bool.eq_false_iff.mp (isEmpty_of_mem_states ha.checked hm))
  have hlt := below_states ha.checked hm n hn
  exact (h.valid ha hg hb hr hx hq ⟨n, List.getElem?_eq_getElem hlt, hn⟩).exists_derives hg

end

end Formula.LR.Grammar
