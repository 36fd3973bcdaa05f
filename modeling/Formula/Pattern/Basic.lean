import Formula.Text.Blank

/-!
# Patterns

A pattern describes a set of texts. `Matches` says which texts belong to it, and `steps` computes what is
left of a pattern after a character: finitely many patterns, of which one has to match the rest. Reading a
text is then a walk from step to step, and `nullable` says where the walk may stop.
-/

namespace Formula

/-- A part of a set of characters: a range with both ends, or the white space. -/
inductive CharItem where
  | range (first last : Char)
  | blank
deriving DecidableEq, Repr

def CharItem.contains (c : Char) : CharItem → Bool
  | .range first last => first ≤ c && c ≤ last
  | .blank => Text.isBlank c

/-- The characters in some item, or, when `negated`, in none. -/
structure CharSet where
  items : List CharItem
  negated : Bool := false
deriving DecidableEq, Repr

def CharSet.contains (s : CharSet) (c : Char) : Bool :=
  s.items.any (·.contains c) != s.negated

/-- A regular expression over characters. -/
inductive Pattern where
  /-- No text. -/
  | never
  /-- The empty text. -/
  | empty
  /-- One character of a set. -/
  | one (set : CharSet)
  /-- A text of the first pattern and then one of the second. -/
  | seq (first second : Pattern)
  | alt (left right : Pattern)
  /-- Any number of texts of the pattern in a row. -/
  | star (body : Pattern)
deriving DecidableEq, Repr

namespace Pattern

/-- The texts that belong to a pattern. -/
inductive Matches : Pattern → List Char → Prop where
  | empty : Matches .empty []
  | one {s : CharSet} {c : Char} : s.contains c = true → Matches (.one s) [c]
  | seq {p q : Pattern} {xs ys : List Char} :
      Matches p xs → Matches q ys → Matches (.seq p q) (xs ++ ys)
  | left {p q : Pattern} {xs : List Char} : Matches p xs → Matches (.alt p q) xs
  | right {p q : Pattern} {xs : List Char} : Matches q xs → Matches (.alt p q) xs
  | done {p : Pattern} : Matches (.star p) []
  | more {p : Pattern} {xs ys : List Char} :
      Matches p xs → Matches (.star p) ys → Matches (.star p) (xs ++ ys)

/-! ## Building patterns -/

/-- One character. -/
def char (c : Char) : Pattern := .one ⟨[.range c c], false⟩

/-- A given text. -/
def text (s : String) : Pattern :=
  s.toList.foldr (fun c p => if p = .empty then char c else .seq (char c) p) .empty

/-- At least one text of the pattern. -/
def atLeastOne (p : Pattern) : Pattern := .seq p (.star p)

def optional (p : Pattern) : Pattern := .alt p .empty

/-- One of several patterns. -/
def oneOf : List Pattern → Pattern
  | [] => .never
  | [p] => p
  | p :: ps => .alt p (oneOf ps)

/-- Several patterns in a row. -/
def row : List Pattern → Pattern
  | [] => .empty
  | [p] => p
  | p :: ps => .seq p (row ps)

/-- Between `least` and `most` texts of the pattern in a row, or any number from `least` on. -/
def times (p : Pattern) (least : Nat) : Option Nat → Pattern
  | none => row (List.replicate least p ++ [.star p])
  | some most =>
    row (List.replicate least p ++ List.replicate (most - least) (optional p))

/-! ## Steps -/

/-- Whether the pattern matches the empty text. -/
def nullable : Pattern → Bool
  | never => false
  | empty => true
  | one _ => false
  | seq p q => p.nullable && q.nullable
  | alt p q => p.nullable || q.nullable
  | star _ => true

/-- `p` and then `q`, where nothing is written before `q` if `p` is empty. -/
def andThen (p q : Pattern) : Pattern :=
  if p = .empty then q else .seq p q

/-- What may be left of a pattern after the character `c`. -/
def steps (c : Char) : Pattern → List Pattern
  | never => []
  | empty => []
  | one s => if s.contains c then [.empty] else []
  | seq p q => (p.steps c).map (·.andThen q) ++ if p.nullable then q.steps c else []
  | alt p q => p.steps c ++ q.steps c
  | star p => (p.steps c).map (·.andThen (.star p))

/-! ## What the steps mean -/

theorem matches_andThen_iff {p q : Pattern} {xs : List Char} :
    Matches (p.andThen q) xs ↔ Matches (.seq p q) xs := by
  unfold andThen
  split
  · rename_i h
    subst h
    constructor
    · intro h
      exact List.nil_append xs ▸ Matches.seq .empty h
    · intro h
      cases h with
      | seq h₁ h₂ => cases h₁; simpa using h₂
  · exact Iff.rfl

theorem nullable_iff {p : Pattern} : p.nullable = true ↔ Matches p [] := by
  constructor
  · intro h
    induction p with
    | never => simp [nullable] at h
    | empty => exact .empty
    | one => simp [nullable] at h
    | seq p q ihp ihq =>
      simp only [nullable, Bool.and_eq_true] at h
      exact Matches.seq (ihp h.1) (ihq h.2)
    | alt p q ihp ihq =>
      simp only [nullable, Bool.or_eq_true] at h
      exact h.elim (fun h => .left (ihp h)) fun h => .right (ihq h)
    | star => exact .done
  · intro h
    generalize hw : ([] : List Char) = w at h
    induction h with
    | empty => rfl
    | one => simp at hw
    | seq _ _ ihp ihq =>
      obtain ⟨rfl, rfl⟩ := List.append_eq_nil_iff.1 hw.symm
      simp [nullable, ihp rfl, ihq rfl]
    | left _ ih => simp [nullable, ih hw]
    | right _ ih => simp [nullable, ih hw]
    | done => rfl
    | more => rfl

/-- A text beginning with `c` matches exactly when its rest matches something left after `c`. -/
theorem matches_cons_iff {p : Pattern} {c : Char} {xs : List Char} :
    Matches p (c :: xs) ↔ ∃ q ∈ p.steps c, Matches q xs := by
  constructor
  · intro h
    generalize hw : c :: xs = w at h
    induction h generalizing xs with
    | empty => simp at hw
    | one hc =>
      obtain ⟨rfl, rfl⟩ := List.cons.inj hw
      exact ⟨.empty, by simp [steps, hc], .empty⟩
    | @seq p q as bs h₁ h₂ ih₁ ih₂ =>
      cases as with
      | nil =>
        obtain ⟨r, hr, hm⟩ := ih₂ (by simpa using hw)
        exact ⟨r, by simp [steps, nullable_iff.2 h₁, hr], hm⟩
      | cons a as =>
        obtain ⟨rfl, rfl⟩ := List.cons.inj hw
        obtain ⟨r, hr, hm⟩ := ih₁ rfl
        refine ⟨r.andThen q, ?_, matches_andThen_iff.2 (.seq hm h₂)⟩
        exact List.mem_append_left _ (List.mem_map_of_mem hr)
    | left _ ih =>
      obtain ⟨r, hr, hm⟩ := ih hw
      exact ⟨r, by simp [steps, hr], hm⟩
    | right _ ih =>
      obtain ⟨r, hr, hm⟩ := ih hw
      exact ⟨r, by simp [steps, hr], hm⟩
    | done => simp at hw
    | @more p as bs h₁ h₂ ih₁ ih₂ =>
      cases as with
      | nil => exact ih₂ (by simpa using hw)
      | cons a as =>
        obtain ⟨rfl, rfl⟩ := List.cons.inj hw
        obtain ⟨r, hr, hm⟩ := ih₁ rfl
        exact ⟨r.andThen (.star p), List.mem_map_of_mem hr, matches_andThen_iff.2 (.seq hm h₂)⟩
  · rintro ⟨q, hq, hm⟩
    induction p generalizing q xs with
    | never => simp [steps] at hq
    | empty => simp [steps] at hq
    | one s =>
      simp only [steps] at hq
      split at hq
      · rename_i hc
        obtain rfl := List.mem_singleton.1 hq
        cases hm
        exact .one hc
      · simp at hq
    | seq p q ihp ihq =>
      rcases List.mem_append.1 hq with h | h
      · obtain ⟨r, hr, rfl⟩ := List.mem_map.1 h
        cases matches_andThen_iff.1 hm with
        | seq h₁ h₂ => exact Matches.seq (ihp r hr h₁) h₂
      · split at h
        · rename_i hn
          have both := Matches.seq (nullable_iff.1 hn) (ihq q h hm)
          exact both
        · simp at h
    | alt p q ihp ihq =>
      rcases List.mem_append.1 hq with h | h
      · exact .left (ihp q h hm)
      · exact .right (ihq q h hm)
    | star p ih =>
      obtain ⟨r, hr, rfl⟩ := List.mem_map.1 hq
      cases matches_andThen_iff.1 hm with
      | seq h₁ h₂ => exact Matches.more (ih r hr h₁) h₂

end Pattern

end Formula
