import Formula.Proofs.Token.Spelling

/-!
# Texts behind each other

Two texts meet at a seam when no match of a lexical rule begins in the one and ends in the other (`Seam`). Then the
first text is cut as if it stood alone, and the second as if it stood alone at the place where the first one ends
(`scan_append_of_seam`). There is a seam on both sides of a character that is always a piece of its own
(`isAlone`), and at both ends of a run of blanks or of letters (`isRun`).
-/

namespace Formula

open Pattern (Accepts IsLongest In Matches)
open Text (Position)

namespace Lexer

/-! ## Pieces -/

/-- A piece takes at least one character, and no more than there are. -/
theorem length_of_piece? {text : List Char} {n : Nat} {a : Piece} (h : piece? text = some (n, a)) :
    0 < n ∧ n ≤ text.length := by
  unfold piece? at h
  obtain ⟨m, hm, h⟩ := Option.bind_eq_some_iff.mp h
  obtain ⟨⟨p, piece⟩, -, h⟩ := Option.bind_eq_some_iff.mp h
  have hle := (Pattern.longest_eq_some_iff.mp hm).length_le
  dsimp only at h
  split at h
  · cases h
  · obtain ⟨rfl, -⟩ := Prod.mk.inj (Option.some.inj h)
    exact ⟨Nat.pos_of_ne_zero ‹_›, hle⟩

/-- A piece is a match of its rule. -/
theorem exists_rule_of_piece? {text : List Char} {n : Nat} {a : Piece} (h : piece? text = some (n, a)) :
    ∃ p, (p, a) ∈ rules ∧ Matches p (text.take n) := by
  unfold piece? at h
  obtain ⟨m, hm, h⟩ := Option.bind_eq_some_iff.mp h
  obtain ⟨⟨p, piece⟩, hp, h⟩ := Option.bind_eq_some_iff.mp h
  have hacc := (Pattern.longest_eq_some_iff.mp hm).accepts
  dsimp only at h
  split at h
  · cases h
  · obtain ⟨rfl, rfl⟩ := Prod.mk.inj (Option.some.inj h)
    obtain ⟨q, b, hq, hm⟩ := accepts_iff.mp hacc
    rw [hp] at hq
    cases hq
    exact ⟨p, List.mem_of_getElem? hp, hm⟩

/-- Where no piece begins, no rule matches. -/
theorem not_matches_of_piece?_eq_none {text : List Char} (h : piece? text = none) {p : Pattern}
    (hp : p ∈ patterns) {n : Nat} (hn : n ≤ text.length) : ¬ Matches p (text.take n) := by
  intro hm
  obtain ⟨i, hi⟩ := List.getElem?_of_mem hp
  have hbest := Pattern.longest_best patterns text
  cases hl : Pattern.longest patterns text with
  | none => exact hbest.none hl (Nat.lt_succ_of_le hn) ⟨p, hi, hm⟩
  | some m =>
    -- the longest match is not empty, so it would be a piece
    obtain ⟨q, b, hq, hmq⟩ := accepts_iff.mp (Pattern.longest_eq_some_iff.mp hl).accepts
    have hne : m.length ≠ 0 := by
      intro h0
      rw [h0, List.take_zero] at hmq
      exact ne_nil_of_matches (List.mem_of_getElem? hq) hmq rfl
    rw [piece?, hl] at h
    simp [hq, hne] at h

/-! ## Scans -/

theorem scan_nil (fuel : Nat) (position : Position) : scan fuel position [] = ⟨[.finish position], none⟩ := by
  cases fuel <;> rfl

/-- Fuel that covers the text does not matter. -/
theorem scan_eq_of_length_le {text : List Char} {fuel fuel' : Nat} (hf : text.length ≤ fuel)
    (hf' : text.length ≤ fuel') (position : Position) : scan fuel position text = scan fuel' position text := by
  induction fuel generalizing fuel' text position with
  | zero => rw [List.eq_nil_of_length_eq_zero (Nat.le_zero.mp hf), scan_nil, scan_nil]
  | succ fuel ih =>
    cases text with
    | nil => rw [scan_nil, scan_nil]
    | cons c cs =>
      obtain ⟨fuel', rfl⟩ : ∃ k, fuel' = k + 1 := ⟨fuel' - 1, by rw [List.length_cons] at hf'; omega⟩
      cases hp : piece? (c :: cs) with
      | none => rw [scan_of_piece?_eq_none hp, scan_of_piece?_eq_none hp]
      | some found =>
        obtain ⟨n, a⟩ := found
        have hpos := (length_of_piece? hp).1
        rw [List.length_cons] at hf hf'
        have hrest : ((c :: cs).drop n).length ≤ fuel ∧ ((c :: cs).drop n).length ≤ fuel' := by
          rw [List.length_drop, List.length_cons]
          omega
        rw [scan_cons hp, scan_cons hp]
        dsimp only
        rw [ih hrest.1 hrest.2]

/-- A scan without an error ends with the end of the input. -/
theorem exists_finish_of_scan {fuel : Nat} {position : Position} {text : List Char}
    (h : (scan fuel position text).failure = none) :
    ∃ words stop, (scan fuel position text).tokens = words ++ [.finish stop] := by
  induction fuel generalizing position text with
  | zero => cases text <;> exact ⟨[], position, rfl⟩
  | succ fuel ih =>
    cases text with
    | nil => exact ⟨[], position, rfl⟩
    | cons c cs =>
      cases hp : piece? (c :: cs) with
      | none =>
        rw [scan_of_piece?_eq_none hp] at h
        cases h
      | some found =>
        rw [scan_cons hp] at h ⊢
        obtain ⟨words, stop, hw⟩ := ih h
        dsimp only
        rw [hw, ← List.append_assoc]
        exact ⟨_, stop, rfl⟩

/-- One scan behind another: the end of the first one is left out, and its error ends both. -/
def Scan.andThen (front back : Scan) : Scan :=
  match front.failure with
  | some e => ⟨front.tokens, some e⟩
  | none => ⟨front.tokens.dropLast ++ back.tokens, back.failure⟩

theorem Scan.andThen_of_failure {front : Scan} {e : Error} (h : front.failure = some e) (back : Scan) :
    front.andThen back = front := by
  obtain ⟨tokens, failure⟩ := front
  cases h
  rfl

theorem Scan.andThen_of_finish (words : List Token) (stop : Position) (back : Scan) :
    (Scan.mk (words ++ [.finish stop]) none).andThen back = ⟨words ++ back.tokens, back.failure⟩ := by
  simp [Scan.andThen]

/-- Tokens in front of both. -/
theorem Scan.andThen_append {fuel : Nat} {position : Position} {text : List Char} (words : List Token) (back : Scan) :
    (Scan.mk (words ++ (scan fuel position text).tokens) (scan fuel position text).failure).andThen back =
      ⟨words ++ ((scan fuel position text).andThen back).tokens, ((scan fuel position text).andThen back).failure⟩ := by
  cases hf : (scan fuel position text).failure with
  | some e => rw [Scan.andThen_of_failure hf, Scan.andThen, hf]
  | none =>
    obtain ⟨ws, stop, hw⟩ := exists_finish_of_scan hf
    rw [hw, ← List.append_assoc, Scan.andThen_of_finish, Scan.andThen, hf, hw]
    simp

/-! ## Seams -/

/-- No match of a rule begins in the first text and ends in the second. -/
def Seam (text rest : List Char) : Prop :=
  ∀ {xs ys : List Char}, xs ≠ [] → ys ≠ [] → xs <:+ text → ys <+: rest → ∀ {p}, p ∈ patterns → ¬ Matches p (xs ++ ys)

theorem Seam.drop {text rest : List Char} (h : Seam text rest) (n : Nat) : Seam (text.drop n) rest :=
  fun hx hy hxs hys _ hp => h hx hy (hxs.trans (List.drop_suffix n text)) hys hp

section

variable {text rest : List Char} (h : Seam text rest)

include h

/-- A match at the front ends at the seam at the latest. -/
theorem Seam.length_le (ht : text ≠ []) {n i : Nat} (hn : n ≤ (text ++ rest).length)
    (hacc : Accepts patterns ((text ++ rest).take n) i) : n ≤ text.length := by
  by_contra hlt
  obtain ⟨p, hp, hm⟩ := hacc
  rw [List.length_append] at hn
  rw [List.take_append, List.take_of_length_le (by omega)] at hm
  refine h ht ?_ List.suffix_rfl (List.take_prefix _ _) (List.mem_of_getElem? hp) hm
  intro hnil
  have := congrArg List.length hnil
  rw [List.length_take, List.length_nil] at this
  omega

/-- The piece in front of a seam is the same without what is behind the seam. -/
theorem Seam.piece?_append (ht : text ≠ []) : piece? (text ++ rest) = piece? text := by
  have htake : ∀ {n}, n ≤ text.length → (text ++ rest).take n = text.take n := List.take_append_of_le_length
  have hmore : text.length ≤ (text ++ rest).length := by
    rw [List.length_append]
    exact Nat.le_add_right _ _
  have hlongest : Pattern.longest patterns (text ++ rest) = Pattern.longest patterns text := by
    refine Option.ext fun m => ?_
    rw [Pattern.longest_eq_some_iff, Pattern.longest_eq_some_iff]
    constructor
    · intro hl
      have hle := h.length_le ht hl.length_le hl.accepts
      refine ⟨hle, htake hle ▸ hl.accepts, fun hn hacc => hl.first (hn.trans hmore) ?_⟩
      rwa [htake hn]
    · intro hl
      refine ⟨hl.length_le.trans hmore, (htake hl.length_le).symm ▸ hl.accepts, fun hn hacc => ?_⟩
      have hle := h.length_le ht hn hacc
      exact hl.first hle (htake hle ▸ hacc)
  unfold piece?
  rw [hlongest]

/-- Two texts that meet at a seam are scanned one after the other. -/
theorem scan_append_of_seam {fuel : Nat} (hf : text.length + rest.length ≤ fuel) (position : Position) :
    scan fuel position (text ++ rest) =
      (scan fuel position text).andThen (scan fuel (position.after text) rest) := by
  induction fuel generalizing text position with
  | zero =>
    obtain rfl := List.eq_nil_of_length_eq_zero (Nat.le_zero.mp ((Nat.le_add_right _ _).trans hf))
    rw [scan_nil]
    rfl
  | succ fuel ih =>
    cases text with
    | nil => rfl
    | cons c cs =>
      have hseam := h.piece?_append (List.cons_ne_nil c cs)
      rw [List.cons_append] at hseam ⊢
      cases hp : piece? (c :: cs) with
      | none =>
        rw [scan_of_piece?_eq_none hp, scan_of_piece?_eq_none (hseam.trans hp)]
        rfl
      | some found =>
        obtain ⟨n, a⟩ := found
        obtain ⟨hpos, hle⟩ := length_of_piece? hp
        have hleft : ((c :: cs).drop n).length + rest.length ≤ fuel := by
          rw [List.length_drop]
          rw [List.length_cons] at hf ⊢
          omega
        have hrest : rest.length ≤ fuel := (Nat.le_add_left _ _).trans hleft
        rw [scan_cons hp, scan_cons (hseam.trans hp), ← List.cons_append]
        dsimp only
        rw [List.take_append_of_le_length hle, List.drop_append_of_le_length hle, ih (h.drop n) hleft,
          Scan.andThen_append, ← Position.after_append, List.take_append_drop,
          scan_eq_of_length_le (Nat.le_succ_of_le hrest) hrest]

end

/-! ## Where seams are -/

/-- No rule goes on with the character. -/
def isInitial (c : Char) : Bool := patterns.all fun p => p.tails.all (!·.contains c)

/-- In front of a character that no rule goes on with there is a seam. -/
theorem seam_of_isInitial {c : Char} (h : isInitial c = true) (text rest : List Char) : Seam text (c :: rest) := by
  intro xs ys hx hy _ hys p hp hm
  obtain ⟨x, xs, rfl⟩ := List.exists_cons_of_ne_nil hx
  obtain ⟨y, ys, rfl⟩ := List.exists_cons_of_ne_nil hy
  obtain ⟨rfl, -⟩ := List.cons_prefix_cons.mp hys
  obtain ⟨s, hs, hsc⟩ := hm.within.tail y (by simp)
  simp only [isInitial, List.all_eq_true, Bool.not_eq_true'] at h
  have := h p hp s hs
  rw [hsc] at this
  cases this

/-- No rule goes on with the character, and a match that starts with it is nothing else. -/
def isAlone (c : Char) : Bool :=
  patterns.all fun p => p.tails.all (!·.contains c) && (p.tails.isEmpty || p.heads.all (!·.contains c))

theorem isInitial_of_isAlone {c : Char} (h : isAlone c = true) : isInitial c = true := by
  simp only [isAlone, isInitial, List.all_eq_true, Bool.and_eq_true] at h ⊢
  exact fun p hp => (h p hp).1

/-- In front of a character that stands alone there is a seam. -/
theorem seam_of_isAlone {c : Char} (h : isAlone c = true) (text rest : List Char) : Seam text (c :: rest) :=
  seam_of_isInitial (isInitial_of_isAlone h) text rest

/-- Behind a character that stands alone there is a seam. -/
theorem seam_singleton_of_isAlone {c : Char} (h : isAlone c = true) (rest : List Char) : Seam [c] rest := by
  intro xs ys hx hy hxs _ p hp hm
  obtain rfl : xs = [c] := (List.suffix_cons_iff.mp hxs).resolve_right fun h => hx (List.suffix_nil.mp h)
  obtain ⟨y, ys, rfl⟩ := List.exists_cons_of_ne_nil hy
  obtain ⟨s, hs, hsc⟩ := hm.within.head c rfl
  obtain ⟨u, hu, -⟩ := hm.within.tail y (by simp)
  simp only [isAlone, List.all_eq_true, Bool.and_eq_true, Bool.or_eq_true, Bool.not_eq_true',
    List.isEmpty_iff] at h
  rcases (h p hp).2 with hnil | hall
  · rw [hnil] at hu
    cases hu
  · have := hall s hs
    rw [hsc] at this
    cases this

/-- The characters of the set are read by one rule only, which reads any run of them. -/
def isRun (s : CharSet) : Bool :=
  patterns.all fun p => p = .atLeastOne (.one s) || (p.heads ++ p.tails).all s.apart

/-- A match with a character of such a set has no others. -/
theorem contains_of_isRun {s : CharSet} (h : isRun s = true) {p : Pattern} (hp : p ∈ patterns) {text : List Char}
    (hm : Matches p text) {c d : Char} (hc : c ∈ text) (hd : d ∈ text) (hsc : s.contains c = true) :
    s.contains d = true := by
  -- each character of a match is from the heads or from the tails
  have hin : ∀ {x}, x ∈ text → In (p.heads ++ p.tails) x := by
    intro x hx
    obtain ⟨y, ys, rfl⟩ := List.exists_cons_of_ne_nil (List.ne_nil_of_mem hx)
    rcases List.mem_cons.mp hx with rfl | hx
    · exact (hm.within.head x rfl).mono fun s hs => List.mem_append_left _ hs
    · exact (hm.within.tail x hx).mono fun s hs => List.mem_append_right _ hs
  simp only [isRun, List.all_eq_true, Bool.or_eq_true, decide_eq_true_eq] at h
  rcases h p hp with rfl | hapart
  · obtain ⟨u, hu, hud⟩ := hin hd
    have hsets : (Pattern.atLeastOne (.one s)).heads ++ (Pattern.atLeastOne (.one s)).tails = [s, s, s] := rfl
    rw [hsets] at hu
    obtain rfl : u = s := by simpa using hu
    exact hud
  · obtain ⟨u, hu, huc⟩ := hin hc
    have := CharSet.not_contains_of_apart (hapart u hu) hsc
    rw [huc] at this
    cases this

/-- Where a run of such characters begins or ends there is a seam. -/
theorem seam_of_isRun {s : CharSet} (h : isRun s = true) {text rest : List Char}
    (hends : ∀ c ∈ text.getLast?, ∀ d ∈ rest.head?, s.contains c ≠ s.contains d) : Seam text rest := by
  intro xs ys hx hy hxs hys p hp hm
  obtain ⟨c, hc⟩ := Option.isSome_iff_exists.mp (List.getLast?_isSome.mpr hx)
  obtain ⟨d, ds, rfl⟩ := List.exists_cons_of_ne_nil hy
  have hlast : text.getLast? = some c := by
    obtain ⟨front, rfl⟩ := hxs
    rw [List.getLast?_append_of_ne_nil _ hx, hc]
  have hhead : rest.head? = some d := by
    obtain ⟨more, rfl⟩ := hys
    rfl
  have hmem : c ∈ xs ++ d :: ds ∧ d ∈ xs ++ d :: ds := ⟨by simp [List.mem_of_getLast? hc], by simp⟩
  have hsame : s.contains c = true ↔ s.contains d = true :=
    ⟨contains_of_isRun h hp hm hmem.1 hmem.2, contains_of_isRun h hp hm hmem.2 hmem.1⟩
  exact hends c hlast d hhead (Bool.eq_iff_iff.mpr hsame)

end Lexer

end Formula
