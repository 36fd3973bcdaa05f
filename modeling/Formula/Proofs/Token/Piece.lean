import Formula.Proofs.Pattern.Ends
import Formula.Proofs.Pattern.Longest
import Formula.Token.Lexer

/-!
# The next piece of a text

No text but the empty one matches two lexical rules (`rule_unique`), so the order of the rules never decides. A
match is the next piece when what follows does not go on with it (`piece?_append`): the character behind it is none
that a rule with the same first characters could read on with. Which rules may stand next to each other is decided
by computation (`parts`).
-/

namespace Formula

namespace Pattern

/-- No character starts matches of both patterns. -/
def headsApart (p q : Pattern) : Bool := p.heads.all fun s => q.heads.all s.apart

theorem not_in_heads_of_headsApart {p q : Pattern} (h : headsApart p q = true) {c : Char} (hc : In p.heads c) :
    ¬ In q.heads c := by
  intro ⟨t, ht, htc⟩
  obtain ⟨s, hs, hsc⟩ := hc
  simp only [headsApart, List.all_eq_true] at h
  have := CharSet.not_contains_of_apart (h s hs t ht) hsc
  rw [htc] at this
  cases this

/-- The character of a pattern for one character. -/
def sole? : Pattern → Option Char
  | .one ⟨[.range c d], false⟩ => if c = d then some c else none
  | _ => none

theorem eq_singleton_of_sole? {p : Pattern} {c : Char} (h : p.sole? = some c) {text : List Char}
    (hm : Matches p text) : text = [c] := by
  unfold sole? at h
  split at h
  · rename_i d e
    split at h
    · rename_i hde
      cases h
      cases hm with
      | one hx =>
        rename_i x
        obtain ⟨item, hi, hx⟩ := (CharSet.contains_iff rfl).mp hx
        rw [List.mem_singleton] at hi
        rw [hi, CharItem.contains, Bool.and_eq_true, decide_eq_true_eq, decide_eq_true_eq, ← hde] at hx
        rw [Char.le_antisymm hx.2 hx.1]
    · cases h
  · cases h

/-- A nonempty text that matches `p` does not match `q`, as far as its first character tells, or, when `p` is a
single character, the whole text. -/
def excludes (p q : Pattern) : Bool :=
  headsApart p q || p.sole?.any fun c => !(q.steps c).any nullable

theorem not_matches_of_excludes {p q : Pattern} (h : excludes p q = true) {text : List Char}
    (hp : Matches p text) (ht : text ≠ []) : ¬ Matches q text := by
  intro hq
  rw [excludes, Bool.or_eq_true, Option.any_eq_true] at h
  rcases h with h | ⟨c, hc, h⟩
  · obtain ⟨c, cs, rfl⟩ := List.exists_cons_of_ne_nil ht
    exact not_in_heads_of_headsApart h (hp.within.head c rfl) (hq.within.head c rfl)
  · rw [eq_singleton_of_sole? hc hp] at hq
    obtain ⟨r, hr, hm⟩ := matches_cons_iff.mp hq
    rw [Bool.not_eq_true', List.any_eq_false] at h
    exact h r hr (nullable_iff.mpr hm)

end Pattern

namespace Lexer

open Pattern (Accepts IsLongest In Matches)

/-! ## One rule for each piece -/

theorem accepts_iff {text : List Char} {i : Nat} :
    Accepts patterns text i ↔ ∃ p a, rules[i]? = some (p, a) ∧ Matches p text := by
  simp only [Accepts, patterns, List.getElem?_map, Option.map_eq_some_iff]
  constructor
  · rintro ⟨_, ⟨⟨p, a⟩, hr, rfl⟩, hm⟩
    exact ⟨p, a, hr, hm⟩
  · rintro ⟨p, a, hr, hm⟩
    exact ⟨p, ⟨(p, a), hr, rfl⟩, hm⟩

theorem rules_exclusive : ∀ x ∈ rules.zipIdx, ∀ y ∈ rules.zipIdx, x.2 = y.2 ∨
    Pattern.excludes x.1.1 y.1.1 = true ∨ Pattern.excludes y.1.1 x.1.1 = true := by
  decide +kernel

/-- No text but the empty one matches two rules. -/
theorem rule_unique {text : List Char} (ht : text ≠ []) {i j : Nat} (hi : Accepts patterns text i)
    (hj : Accepts patterns text j) : i = j := by
  obtain ⟨p, a, hp, hpm⟩ := accepts_iff.mp hi
  obtain ⟨q, b, hq, hqm⟩ := accepts_iff.mp hj
  have hip := List.mk_mem_zipIdx_iff_getElem?.mpr hp
  have hjq := List.mk_mem_zipIdx_iff_getElem?.mpr hq
  rcases rules_exclusive _ hip _ hjq with h | h | h
  · exact h
  · exact absurd hqm (Pattern.not_matches_of_excludes h hpm ht)
  · exact absurd hpm (Pattern.not_matches_of_excludes h hqm ht)

/-! ## What may follow a piece -/

/-- The characters that some rule could go on with, after a beginning that it shares with a pattern. -/
def joins (p : Pattern) : List CharSet :=
  (patterns.filter fun q => !Pattern.headsApart p q).flatMap Pattern.tails

/-- A match of the one pattern directly in front of a match of the other is not read on. -/
def parts (p q : Pattern) : Bool := (joins p).all fun s => q.heads.all s.apart

theorem not_in_joins_of_parts {p q : Pattern} (h : parts p q = true) {c : Char} (hc : In q.heads c) :
    ¬ In (joins p) c := by
  intro ⟨s, hs, hsc⟩
  obtain ⟨t, ht, htc⟩ := hc
  simp only [parts, List.all_eq_true] at h
  have := CharSet.not_contains_of_apart (h s hs t ht) hsc
  rw [htc] at this
  cases this

/-- A match that cannot be read on with what follows is the next piece. -/
theorem piece?_append {p : Pattern} {a : Piece} (hr : (p, a) ∈ rules) {text rest : List Char}
    (hm : Matches p text) (ht : text ≠ []) (hrest : ∀ d ∈ rest.head?, ¬ In (joins p) d) :
    piece? (text ++ rest) = some (text.length, a) := by
  obtain ⟨i, hi⟩ := List.getElem?_of_mem hr
  have haccepts : Accepts patterns text i := accepts_iff.mpr ⟨p, a, hi, hm⟩
  have hlongest : IsLongest patterns (text ++ rest) ⟨i, text.length⟩ := by
    refine ⟨by simp, by rwa [List.take_left' rfl], ?_⟩
    intro n j hle hacc
    dsimp only
    rcases Nat.lt_trichotomy n text.length with hn | hn | hn
    · exact .inl hn
    · rw [hn, List.take_left' rfl] at hacc
      exact .inr ⟨hn, Nat.le_of_eq (rule_unique ht haccepts hacc)⟩
    · -- a longer match goes on with the next character
      obtain ⟨q, b, hq, hqm⟩ := accepts_iff.mp hacc
      obtain ⟨c, cs, rfl⟩ := List.exists_cons_of_ne_nil ht
      have htake : ((c :: cs) ++ rest).take n = c :: (cs ++ rest.take (n - (c :: cs).length)) := by
        rw [List.take_append, List.take_of_length_le (Nat.le_of_lt hn), List.cons_append]
      rw [htake] at hqm
      cases rest with
      | nil =>
        rw [List.append_nil] at hle
        omega
      | cons d rest =>
        have hd : d ∈ cs ++ (d :: rest).take (n - (c :: cs).length) := by
          obtain ⟨k, hk⟩ : ∃ k, n - (c :: cs).length = k + 1 := ⟨n - (c :: cs).length - 1, by omega⟩
          rw [hk, List.take_succ_cons]
          exact List.mem_append_right _ List.mem_cons_self
        refine absurd ?_ (hrest d rfl)
        have hshared : Pattern.headsApart p q = false := by
          rw [Bool.eq_false_iff]
          intro hapart
          exact Pattern.not_in_heads_of_headsApart hapart (hm.within.head c rfl) (hqm.within.head c rfl)
        have hmem : q ∈ patterns.filter fun q => !Pattern.headsApart p q := by
          rw [List.mem_filter, hshared]
          exact ⟨List.mem_map_of_mem (List.mem_of_getElem? hq), rfl⟩
        refine (hqm.within.tail d hd).mono fun s hs => ?_
        exact List.mem_flatMap.mpr ⟨q, hmem, hs⟩
  rw [piece?, Pattern.longest_eq_some_iff.mpr hlongest]
  simp [hi, ht]

end Lexer

end Formula
