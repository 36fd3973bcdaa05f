import Formula.Pattern.Basic

/-!
# What a match may start with

Bounds on the characters of a match, read off the pattern: the sets that its first character is from (`heads`)
and those that the others are from (`tails`). Sets are compared by their ranges of code points, so that it is
decided by computation which patterns can start with the same character (`CharSet.apart`).
-/

namespace Formula

/-! ## Sets that have nothing in common -/

/-- The code points of an item, as ranges with both ends. -/
def CharItem.ranges : CharItem → List (Nat × Nat)
  | .range first last => [(first.toNat, last.toNat)]
  | .blank =>
    [(0x9, 0xd), (0x20, 0x20), (0x85, 0x85), (0xa0, 0xa0), (0x1680, 0x1680), (0x2000, 0x200a),
      (0x2028, 0x2029), (0x202f, 0x202f), (0x205f, 0x205f), (0x3000, 0x3000)]

theorem CharItem.contains_iff {item : CharItem} {c : Char} :
    item.contains c = true ↔ ∃ r ∈ item.ranges, r.1 ≤ c.toNat ∧ c.toNat ≤ r.2 := by
  cases item with
  | range first last =>
    simp only [contains, ranges, Bool.and_eq_true, decide_eq_true_eq, List.mem_singleton,
      exists_eq_left]
    exact Iff.rfl
  | blank =>
    simp only [contains, ranges, Text.isBlank, List.mem_cons, List.not_mem_nil, or_false,
      exists_eq_or_imp, exists_eq_left, Bool.or_eq_true, Bool.and_eq_true, decide_eq_true_eq,
      beq_iff_eq]
    omega

/-- Two sets have no character in common, as far as the ranges of their items tell. -/
def CharSet.apart (s t : CharSet) : Bool :=
  !s.negated && !t.negated && s.items.all fun a => t.items.all fun b =>
    a.ranges.all fun r => b.ranges.all fun u => r.2 < u.1 || u.2 < r.1

theorem CharSet.contains_iff {s : CharSet} (hs : s.negated = false) {c : Char} :
    s.contains c = true ↔ ∃ item ∈ s.items, item.contains c = true := by
  rw [contains, hs, bne_iff_ne, Bool.ne_false_iff, List.any_eq_true]

theorem CharSet.not_contains_of_apart {s t : CharSet} (h : s.apart t = true) {c : Char}
    (hs : s.contains c = true) : t.contains c = false := by
  simp only [apart, Bool.and_eq_true, Bool.not_eq_true', List.all_eq_true, Bool.or_eq_true,
    decide_eq_true_eq] at h
  obtain ⟨⟨hns, hnt⟩, hr⟩ := h
  rw [Bool.eq_false_iff]
  intro ht
  obtain ⟨a, ha, hac⟩ := (contains_iff hns).mp hs
  obtain ⟨b, hb, hbc⟩ := (contains_iff hnt).mp ht
  obtain ⟨r, hra, hr₁, hr₂⟩ := CharItem.contains_iff.mp hac
  obtain ⟨u, hub, hu₁, hu₂⟩ := CharItem.contains_iff.mp hbc
  have := hr a ha b hb r hra u hub
  omega

/-! ## Heads and tails -/

namespace Pattern

/-- The sets that the first character of a match is from. -/
def heads : Pattern → List CharSet
  | never => []
  | empty => []
  | one s => [s]
  | seq p q => p.heads ++ if p.nullable then q.heads else []
  | alt p q => p.heads ++ q.heads
  | star p => p.heads

/-- The sets that the other characters of a match are from. -/
def tails : Pattern → List CharSet
  | never => []
  | empty => []
  | one _ => []
  | seq p q => p.tails ++ q.heads ++ q.tails
  | alt p q => p.tails ++ q.tails
  | star p => p.tails ++ p.heads

/-- The character is in one of the sets. -/
def In (sets : List CharSet) (c : Char) : Prop := ∃ s ∈ sets, s.contains c = true

theorem In.mono {sets sets' : List CharSet} (h : ∀ s ∈ sets, s ∈ sets') {c : Char} (hc : In sets c) :
    In sets' c := by
  obtain ⟨s, hs, hsc⟩ := hc
  exact ⟨s, h s hs, hsc⟩

/-- The first character of a text is from some sets, the others are from others. -/
structure Within (heads tails : List CharSet) (text : List Char) : Prop where
  head : ∀ c ∈ text.head?, In heads c
  tail : ∀ c ∈ text.tail, In tails c

theorem Within.mono {heads heads' tails tails' : List CharSet} {text : List Char} (h : Within heads tails text)
    (hh : ∀ s ∈ heads, s ∈ heads') (ht : ∀ s ∈ tails, s ∈ tails') : Within heads' tails' text where
  head c hc := (h.head c hc).mono hh
  tail c hc := (h.tail c hc).mono ht

/-- One text behind another. The first character is from the second text only if the first is empty. -/
theorem Within.append {heads heads' tails tails' : List CharSet} {xs ys : List Char}
    (hx : Within heads tails xs) (hy : Within heads' tails' ys) :
    Within (heads ++ if xs = [] then heads' else []) (tails ++ heads' ++ tails') (xs ++ ys) := by
  cases xs with
  | nil =>
    rw [if_pos rfl]
    refine hy.mono ?_ ?_
    · exact fun s hs => List.mem_append_right heads hs
    · exact fun s hs => List.mem_append_right (tails ++ heads') hs
  | cons x xs =>
    rw [if_neg (List.cons_ne_nil x xs), List.append_nil]
    refine ⟨hx.head, fun c hc => ?_⟩
    rw [List.cons_append, List.tail_cons] at hc
    rcases List.mem_append.mp hc with hc | hc
    · refine (hx.tail c hc).mono fun s hs => ?_
      exact List.mem_append_left _ (List.mem_append_left _ hs)
    · cases ys with
      | nil => cases hc
      | cons y ys =>
        rcases List.mem_cons.mp hc with rfl | hc
        · refine (hy.head c rfl).mono fun s hs => ?_
          exact List.mem_append_left _ (List.mem_append_right _ hs)
        · exact (hy.tail c hc).mono fun s hs => List.mem_append_right _ hs

/-- The first character of a match is from the heads, the others are from the tails. -/
theorem Matches.within {p : Pattern} {text : List Char} (h : Matches p text) :
    Within p.heads p.tails text := by
  induction h with
  | empty => exact ⟨by simp, by simp⟩
  | @one s c hc =>
    refine ⟨fun d hd => ?_, by simp⟩
    obtain rfl : c = d := by simpa using hd
    exact ⟨s, List.mem_singleton_self s, hc⟩
  | @seq p q xs ys hp _ ihp ihq =>
    refine (ihp.append ihq).mono (fun s hs => ?_) fun s hs => hs
    rw [heads]
    rcases List.mem_append.mp hs with hs | hs
    · exact List.mem_append_left _ hs
    · refine List.mem_append_right _ ?_
      split at hs
      · rename_i hx
        rwa [if_pos (nullable_iff.mpr (hx ▸ hp))]
      · cases hs
  | left _ ih =>
    refine ih.mono ?_ ?_ <;>
      exact fun s hs => List.mem_append_left _ hs
  | right _ ih =>
    refine ih.mono ?_ ?_ <;>
      exact fun s hs => List.mem_append_right _ hs
  | done => exact ⟨by simp, by simp⟩
  | @more p xs ys _ _ ihp ihq =>
    refine (ihp.append ihq).mono (fun s hs => ?_) fun s hs => ?_
    · rcases List.mem_append.mp hs with hs | hs
      · exact hs
      · split at hs
        · exact hs
        · cases hs
    · simp only [heads, tails, List.mem_append] at hs ⊢
      exact hs.elim id id

end Pattern

end Formula
