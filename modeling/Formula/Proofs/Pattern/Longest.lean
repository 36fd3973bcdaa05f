import Mathlib.Data.List.Basic
import Formula.Pattern.Longest

/-!
# The longest match

What reading many patterns at once finds (`longest_eq_some_iff`): a match on the front of the text such that no
pattern matches a longer front, and none with a smaller number matches the same one. `Front.After` says what is
left of the patterns after some characters, and `Best` what the best match among the shorter fronts is; both are
kept from character to character.
-/

namespace Formula.Pattern

/-! ## Deciding a match -/

/-- Whether a text matches what is left of a pattern. -/
def leads : List Char → List Pattern → Bool
  | [], left => left.any nullable
  | c :: cs, left => leads cs (left.flatMap (steps c))

theorem leads_iff {text : List Char} {left : List Pattern} :
    leads text left = true ↔ ∃ p ∈ left, Matches p text := by
  induction text generalizing left with
  | nil => simp only [leads, List.any_eq_true, nullable_iff]
  | cons c cs ih =>
    rw [leads, ih]
    constructor
    · intro ⟨q, hq, hm⟩
      obtain ⟨p, hp, hq⟩ := List.mem_flatMap.mp hq
      exact ⟨p, hp, matches_cons_iff.mpr ⟨q, hq, hm⟩⟩
    · intro ⟨p, hp, hm⟩
      obtain ⟨q, hq, hm⟩ := matches_cons_iff.mp hm
      exact ⟨q, List.mem_flatMap.mpr ⟨p, hp, hq⟩, hm⟩

instance (p : Pattern) (text : List Char) : Decidable (Matches p text) :=
  decidable_of_iff (leads text [p] = true) (by simp [leads_iff])

/-! ## Longest matches -/

/-- The pattern with a number matches a text. -/
def Accepts (ps : List Pattern) (text : List Char) (i : Nat) : Prop :=
  ∃ p, ps[i]? = some p ∧ Matches p text

/-- A match on the front of a text that no other one comes before: none is longer, and none as long has a smaller
number. -/
structure IsLongest (ps : List Pattern) (text : List Char) (m : Match) : Prop where
  length_le : m.length ≤ text.length
  accepts : Accepts ps (text.take m.length) m.pattern
  first : ∀ {n i}, n ≤ text.length → Accepts ps (text.take n) i →
    n < m.length ∨ n = m.length ∧ m.pattern ≤ i

/-- There is only one longest match. -/
theorem IsLongest.unique {ps : List Pattern} {text : List Char} {m m' : Match} (h : IsLongest ps text m)
    (h' : IsLongest ps text m') : m = m' := by
  have hm := h.first h'.length_le h'.accepts
  have hm' := h'.first h.length_le h.accepts
  obtain ⟨i, n⟩ := m
  obtain ⟨i', n'⟩ := m'
  have hn : n = n' := by dsimp only at hm hm'; omega
  have hi : i = i' := by dsimp only at hm hm'; omega
  rw [hn, hi]

/-! ## What is left -/

namespace Front

/-- What a front is after some characters: for each pattern that can still match, what is left of it, in the order
of the patterns. -/
structure After (ps : List Pattern) (read : List Char) (front : Front) : Prop where
  ordered : front.Pairwise (·.1 < ·.1)
  accepts_iff : ∀ i rest, Accepts ps (read ++ rest) i ↔
    ∃ left, (i, left) ∈ front ∧ ∃ q ∈ left, Matches q rest

theorem after_start (ps : List Pattern) : After ps [] (start ps) where
  ordered := by
    have h : (ps.zipIdx.map Prod.snd).Pairwise (· < ·) := by
      rw [List.zipIdx_map_snd]
      exact List.pairwise_lt_range'
    unfold start
    exact List.pairwise_map.mpr (List.pairwise_map.mp h)
  accepts_iff i rest := by
    simp only [start, List.mem_map, List.nil_append, Accepts]
    constructor
    · intro ⟨p, hp, hm⟩
      exact ⟨[p], ⟨(p, i), List.mk_mem_zipIdx_iff_getElem?.mpr hp, rfl⟩, p, List.mem_singleton_self p, hm⟩
    · intro ⟨left, ⟨⟨p, j⟩, hp, he⟩, q, hq, hm⟩
      cases he
      obtain rfl := List.mem_singleton.mp hq
      exact ⟨q, List.mk_mem_zipIdx_iff_getElem?.mp hp, hm⟩

theorem mem_advance_iff {front : Front} {c : Char} {i : Nat} {left : List Pattern} :
    (i, left) ∈ front.advance c ↔
      ∃ before, (i, before) ∈ front ∧ (before.flatMap (steps c)).eraseDups = left ∧ left ≠ [] := by
  unfold advance
  rw [List.mem_filterMap]
  constructor
  · intro ⟨⟨j, before⟩, hb, he⟩
    dsimp only at he
    split at he
    · cases he
    · rename_i hne
      cases he
      exact ⟨before, hb, rfl, hne⟩
  · intro ⟨before, hb, he, hne⟩
    refine ⟨(i, before), hb, ?_⟩
    dsimp only
    rw [he]
    cases left with
    | nil => exact absurd rfl hne
    | cons => rfl

variable {ps : List Pattern} {read : List Char} {front : Front}

theorem After.advance (h : After ps read front) (c : Char) :
    After ps (read ++ [c]) (front.advance c) where
  ordered := by
    unfold Front.advance
    refine List.pairwise_filterMap.mpr (h.ordered.imp fun {a b} hab x hx y hy => ?_)
    -- a pattern keeps its number
    cases a
    cases b
    dsimp only at hx hy
    split at hx <;> cases hx
    split at hy <;> cases hy
    exact hab
  accepts_iff i rest := by
    rw [List.append_assoc, List.singleton_append, h.accepts_iff]
    constructor
    · rintro ⟨before, hb, q, hq, hm⟩
      obtain ⟨r, hr, hm⟩ := matches_cons_iff.mp hm
      have hmem : r ∈ (before.flatMap (steps c)).eraseDups :=
        List.mem_eraseDups.mpr (List.mem_flatMap.mpr ⟨q, hq, hr⟩)
      exact ⟨_, mem_advance_iff.mpr ⟨before, hb, rfl, List.ne_nil_of_mem hmem⟩, r, hmem, hm⟩
    · rintro ⟨left, hl, r, hr, hm⟩
      obtain ⟨before, hb, rfl, -⟩ := mem_advance_iff.mp hl
      obtain ⟨q, hq, hr⟩ := List.mem_flatMap.mp (List.mem_eraseDups.mp hr)
      exact ⟨before, hb, q, hq, matches_cons_iff.mpr ⟨r, hr, hm⟩⟩

/-- A pattern matches what was read if what is left of it matches nothing more. -/
theorem After.accepts_read_iff (h : After ps read front) {i : Nat} :
    Accepts ps read i ↔ ∃ left, (i, left) ∈ front ∧ left.any nullable = true := by
  rw [← List.append_nil read, h.accepts_iff]
  simp only [List.any_eq_true, nullable_iff]

theorem After.accepted?_eq_none (h : After ps read front) (hn : front.accepted? = none) (i : Nat) :
    ¬ Accepts ps read i := by
  intro ha
  obtain ⟨left, hl, hany⟩ := h.accepts_read_iff.mp ha
  have := List.find?_eq_none.mp (Option.map_eq_none_iff.mp hn) _ hl
  exact this hany

theorem After.accepted?_eq_some (h : After ps read front) {i : Nat} (hi : front.accepted? = some i) :
    Accepts ps read i ∧ ∀ {j}, Accepts ps read j → i ≤ j := by
  obtain ⟨⟨_, left⟩, hf, rfl⟩ := Option.map_eq_some_iff.mp hi
  obtain ⟨hany, before, after, he, hbefore⟩ := List.find?_eq_some_iff_append.mp hf
  refine ⟨h.accepts_read_iff.mpr ⟨left, he ▸ List.mem_append_right before List.mem_cons_self, hany⟩, ?_⟩
  intro j hj
  obtain ⟨left', hl, hany'⟩ := h.accepts_read_iff.mp hj
  rw [he] at hl
  rcases List.mem_append.mp hl with hl | hl
  · -- what comes before did not match
    have := hbefore _ hl
    rw [Bool.not_eq_true'] at this
    exact absurd (hany'.symm.trans this) (by simp)
  · have hord := h.ordered
    rw [he] at hord
    rcases List.mem_cons.mp hl with hl | hl
    · exact Nat.le_of_eq (congrArg Prod.fst hl).symm
    · exact Nat.le_of_lt (List.rel_of_pairwise_cons (List.pairwise_append.mp hord).2.1 hl)

end Front

/-! ## The best match -/

/-- What is left behind a place begins with the element there, and the front up to it is one longer. -/
theorem take_of_drop_eq_cons {α : Type} {l rest : List α} {k : Nat} {x : α} (h : l.drop k = x :: rest) :
    k < l.length ∧ l.drop (k + 1) = rest ∧ l.take (k + 1) = l.take k ++ [x] := by
  have hlt : k < l.length := by
    have := congrArg List.length h
    rw [List.length_drop, List.length_cons] at this
    omega
  rw [List.drop_eq_getElem_cons hlt] at h
  obtain ⟨rfl, rfl⟩ := List.cons.inj h
  exact ⟨hlt, rfl, List.take_succ_eq_append_getElem hlt⟩

/-- The best match among the fronts of a text with fewer than `k` characters. -/
structure Best (ps : List Pattern) (text : List Char) (k : Nat) (best : Option Match) : Prop where
  none : best = none → ∀ {n i}, n < k → ¬ Accepts ps (text.take n) i
  some : ∀ {m}, best = some m → m.length < k ∧ Accepts ps (text.take m.length) m.pattern ∧
    ∀ {n i}, n < k → Accepts ps (text.take n) i → n < m.length ∨ n = m.length ∧ m.pattern ≤ i

variable {ps : List Pattern} {text : List Char} {k : Nat} {best : Option Match}

/-- One more front is tried. -/
theorem Best.step (h : Best ps text k best) {front : Front} (hf : front.After ps (text.take k)) :
    Best ps text (k + 1) ((front.accepted?.map (⟨·, k⟩)) <|> best) := by
  cases ha : front.accepted? with
  | none =>
    have hk := hf.accepted?_eq_none ha
    refine ⟨?_, ?_⟩
    · intro hb n i hn hacc
      rcases Nat.lt_succ_iff_lt_or_eq.mp hn with hn | rfl
      · exact h.none hb hn hacc
      · exact hk i hacc
    · intro m hb
      obtain ⟨hm, hacc, hfirst⟩ := h.some hb
      refine ⟨Nat.lt_succ_of_lt hm, hacc, ?_⟩
      intro n i hn hacc
      rcases Nat.lt_succ_iff_lt_or_eq.mp hn with hn | rfl
      · exact hfirst hn hacc
      · exact absurd hacc (hk i)
  | some i =>
    obtain ⟨hi, hfirst⟩ := hf.accepted?_eq_some ha
    refine ⟨fun hb => absurd hb (by simp), ?_⟩
    intro m hb
    obtain rfl : ⟨i, k⟩ = m := by simpa using hb
    refine ⟨Nat.lt_succ_self k, hi, ?_⟩
    intro n j hn hacc
    rcases Nat.lt_succ_iff_lt_or_eq.mp hn with hn | rfl
    · exact .inl hn
    · exact .inr ⟨rfl, hfirst hacc⟩

/-- When nothing is left of the patterns, longer fronts need not be tried. -/
theorem Best.stop (h : Best ps text k best) (hk : k ≤ text.length + 1) (hf : Front.After ps (text.take k) []) :
    Best ps text (text.length + 1) best := by
  have hlong : ∀ {n i}, k ≤ n → ¬ Accepts ps (text.take n) i := by
    intro n i hn hacc
    have he : text.take n = text.take k ++ (text.take n).drop k := by
      calc text.take n = (text.take n).take k ++ (text.take n).drop k := (List.take_append_drop k _).symm
        _ = text.take k ++ (text.take n).drop k := by rw [List.take_take, Nat.min_eq_left hn]
    rw [he, hf.accepts_iff] at hacc
    obtain ⟨left, hl, -⟩ := hacc
    cases hl
  refine ⟨?_, ?_⟩
  · intro hb n i hn hacc
    by_cases hnk : n < k
    · exact h.none hb hnk hacc
    · exact hlong (Nat.le_of_not_lt hnk) hacc
  · intro m hb
    obtain ⟨hm, hacc, hfirst⟩ := h.some hb
    have hmk : m.length ≤ text.length := by
      omega
    refine ⟨by omega, hacc, ?_⟩
    intro n i hn hacc
    by_cases hnk : n < k
    · exact hfirst hnk hacc
    · exact absurd hacc (hlong (Nat.le_of_not_lt hnk))

/-- Reading on from a front finds the best match. -/
theorem Front.longest_best {cs : List Char} {front : Front} (hk : k ≤ text.length) (hcs : text.drop k = cs)
    (hf : front.After ps (text.take k)) (hb : Best ps text k best) :
    Best ps text (text.length + 1) (front.longest best k cs) := by
  induction cs generalizing front best k with
  | nil =>
    have hl : k = text.length := Nat.le_antisymm hk (List.drop_eq_nil_iff.mp hcs)
    rw [Front.longest, ← hl]
    exact hb.step hf
  | cons c cs ih =>
    obtain ⟨hlt, hdrop, htake⟩ := take_of_drop_eq_cons hcs
    have hstep := hb.step hf
    have hadvance := hf.advance c
    rw [← htake] at hadvance
    rw [Front.longest]
    split
    · rename_i he
      rw [he] at hadvance
      exact hstep.stop (Nat.succ_le_succ hk) hadvance
    · exact ih hlt hdrop hadvance hstep

/-- What reading the patterns together finds is the longest match, and it finds one if there is one. -/
theorem longest_best (ps : List Pattern) (text : List Char) :
    Best ps text (text.length + 1) (longest ps text) := by
  refine Front.longest_best (Nat.zero_le _) rfl (Front.after_start ps) ⟨?_, ?_⟩
  · intro _ n i hn
    exact absurd hn (Nat.not_lt_zero n)
  · intro m hm
    cases hm

theorem longest_eq_some_iff {m : Match} : longest ps text = some m ↔ IsLongest ps text m := by
  have hbest := longest_best ps text
  have hsound : ∀ {m}, longest ps text = some m → IsLongest ps text m := by
    intro m hm
    obtain ⟨hl, hacc, hfirst⟩ := hbest.some hm
    exact ⟨Nat.le_of_lt_succ hl, hacc, fun hn => hfirst (Nat.lt_succ_of_le hn)⟩
  refine ⟨hsound, fun h => ?_⟩
  cases hfound : longest ps text with
  | none => exact absurd h.accepts (hbest.none hfound (Nat.lt_succ_of_le h.length_le))
  | some m' => rw [h.unique (hsound hfound)]

end Formula.Pattern
