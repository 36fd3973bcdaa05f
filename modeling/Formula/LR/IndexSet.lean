/-!
# Sets of indices

A finite set of natural numbers, kept in the binary digits of one number. Two sets with the same members are
the same number (`ext`), and each operation on whole sets is one operation on numbers, however many members
there are. The lemmas `has_…` say what every operation does to the members.
-/

namespace Formula.LR

/-- A set of natural numbers: `i` is a member when the digit for `2 ^ i` is one. -/
structure IndexSet where
  digits : Nat
deriving Repr, Inhabited

namespace IndexSet

instance : BEq IndexSet where
  beq s t := s.digits.beq t.digits

instance : LawfulBEq IndexSet where
  eq_of_beq {s t} h := by
    cases s; cases t
    exact congrArg mk (Nat.eq_of_beq_eq_true h)
  rfl {s} := Nat.beq_refl s.digits

instance : DecidableEq IndexSet := fun s t => decidable_of_iff (s == t) beq_iff_eq

/-- Whether `i` is a member. -/
def has (s : IndexSet) (i : Nat) : Bool := s.digits.testBit i

def empty : IndexSet := ⟨0⟩

def isEmpty (s : IndexSet) : Bool := s.digits == 0

def insert (s : IndexSet) (i : Nat) : IndexSet := ⟨s.digits ||| 1 <<< i⟩

def union (s t : IndexSet) : IndexSet := ⟨s.digits ||| t.digits⟩

def inter (s t : IndexSet) : IndexSet := ⟨s.digits &&& t.digits⟩

/-- Every member made larger by one. -/
def next (s : IndexSet) : IndexSet := ⟨s.digits <<< 1⟩

def ofList (is : List Nat) : IndexSet := is.foldl insert empty

/-- The members of any of the sets. -/
def unions (ss : List IndexSet) : IndexSet := ss.foldl union empty

/-- The members below `n`, in increasing order. -/
def toList (s : IndexSet) (n : Nat) : List Nat := (List.range n).filter s.has

/-! ## Members -/

theorem ext {s t : IndexSet} (h : ∀ i, s.has i = t.has i) : s = t := by
  cases s; cases t
  exact congrArg mk (Nat.eq_of_testBit_eq h)

theorem has_empty (i : Nat) : empty.has i = false :=
  Nat.zero_testBit i

theorem isEmpty_iff {s : IndexSet} : s.isEmpty = true ↔ ∀ i, s.has i = false := by
  constructor
  · intro h i
    rw [has, (beq_iff_eq.1 h : s.digits = 0)]
    exact Nat.zero_testBit i
  · intro h
    rw [ext (t := empty) fun i => (h i).trans (has_empty i).symm]
    rfl

theorem has_insert (s : IndexSet) (i j : Nat) :
    (s.insert i).has j = (s.has j || decide (j = i)) := by
  simp [has, insert, Nat.testBit_or, Nat.one_shiftLeft, Nat.testBit_two_pow, eq_comm (a := i)]

theorem has_union (s t : IndexSet) (i : Nat) : (s.union t).has i = (s.has i || t.has i) := by
  simp [has, union, Nat.testBit_or]

theorem has_inter (s t : IndexSet) (i : Nat) : (s.inter t).has i = (s.has i && t.has i) := by
  simp [has, inter, Nat.testBit_and]

theorem has_next (s : IndexSet) (i : Nat) : s.next.has i = (decide (0 < i) && s.has (i - 1)) := by
  simp [has, next, Nat.testBit_shiftLeft, Nat.succ_le_iff]

theorem has_foldl_insert (s : IndexSet) (is : List Nat) (i : Nat) :
    (is.foldl insert s).has i = true ↔ s.has i = true ∨ i ∈ is := by
  induction is generalizing s with
  | nil => simp
  | cons j is ih => simp [ih, has_insert, or_assoc]

theorem has_ofList {is : List Nat} {i : Nat} : (ofList is).has i = true ↔ i ∈ is := by
  simp [ofList, has_foldl_insert, has_empty]

theorem has_foldl_union (s : IndexSet) (ss : List IndexSet) (i : Nat) :
    (ss.foldl union s).has i = true ↔ s.has i = true ∨ ∃ t ∈ ss, t.has i = true := by
  induction ss generalizing s with
  | nil => simp
  | cons t ss ih => simp [ih, has_union, or_assoc]

theorem has_unions {ss : List IndexSet} {i : Nat} :
    (unions ss).has i = true ↔ ∃ t ∈ ss, t.has i = true := by
  simp [unions, has_foldl_union, has_empty]

theorem mem_toList {s : IndexSet} {n i : Nat} : i ∈ s.toList n ↔ i < n ∧ s.has i = true := by
  simp [toList]

end IndexSet

end Formula.LR
