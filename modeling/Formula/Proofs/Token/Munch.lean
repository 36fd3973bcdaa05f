import Formula.Proofs.Pattern.Bytes
import Formula.Proofs.Token.Layout

/-!
# Longest pieces

A text can be cut in one way only such that each piece is the longest front of what is left that a lexical rule
matches (`Munched`, `Munched.eq`), and this is how it is cut (`munches_iff`). Neither the order of the rules nor the
way in which the longest match is searched for appears in the definition: of each piece it says that exactly one rule
matches it and that no rule matches a longer front, and where the cutting stops that no rule matches any front. What
the piece stands for is said by `Kinds`.

A word is more than the longest match at its place. No letter stands in front of it either, because a piece that
ends with a letter is itself a word and would have been longer (`Munch.boundary`). So a word is a maximal run of
letters of the text, and it is a keyword only if the whole run is one.

The matches are found byte by byte, by an automaton of which only the documented is known
(`Pattern.ByteAutomaton.Compiled`). Which of several rules it tells of need not be known, because there is one only.
-/

namespace Formula

open Pattern (Accepts AcceptsBytes ByteAutomaton Matches)

namespace Lexer

/-! ## Pieces -/

/-- The letters of words. -/
def letters : CharSet := ⟨[.range 'a' 'z', .range 'A' 'Z', .range 'α' 'ω', .range 'Α' 'Ω'], false⟩

theorem isRun_letters : isRun letters = true := by
  decide +kernel

/-- No two letters stand on both sides of a place in a text. -/
def Boundary (front rest : List Char) : Prop :=
  ∀ c ∈ front.getLast?, ∀ d ∈ rest.head?, letters.contains c = true → letters.contains d = false

/-- The piece behind some text and in front of some more: the longest front that a rule matches. Exactly one rule
matches it, and it is read as this rule says. A word is a maximal run of letters. -/
structure Munch (front text rest : List Char) (a : Piece) : Prop where
  ne_nil : text ≠ []
  rule : ∃ p, (p, a) ∈ rules ∧ Matches p text
  only : ∃! i, Accepts patterns text i
  longest : ∀ more, more <+: rest → more ≠ [] → ∀ r ∈ rules, ¬ Matches r.1 (text ++ more)
  run : a = .word → (∀ c ∈ text, letters.contains c = true) ∧
    (∀ c ∈ front.getLast?, letters.contains c = false) ∧ ∀ c ∈ rest.head?, letters.contains c = false

/-- A text of letters is a word. -/
theorem matches_word {text : List Char} (ht : text ≠ []) (h : ∀ c ∈ text, letters.contains c = true) :
    ∃ r ∈ rules, Matches r.1 text :=
  ⟨(.atLeastOne letter, .word), by decide, Pattern.matches_atLeastOne ht h⟩

/-- A word has letters only. -/
theorem letters_of_word {p : Pattern} (hr : (p, .word) ∈ rules) {text : List Char} (hm : Matches p text) :
    ∀ c ∈ text, letters.contains c = true := by
  have hword : ∀ r ∈ rules, r.2 = .word → r.1 = .atLeastOne (.one letters) := by decide
  obtain rfl : p = .atLeastOne (.one letters) := hword _ hr rfl
  intro c hc
  obtain ⟨d, ds, rfl⟩ := List.exists_cons_of_ne_nil (ne_nil_of_matches hr hm)
  obtain ⟨s, hs, hd⟩ := hm.within.head d rfl
  obtain rfl : s = letters := List.mem_singleton.mp hs
  exact contains_of_isRun isRun_letters (List.mem_map_of_mem hr) hm List.mem_cons_self hc hd

/-- A match that ends with a letter and cannot be made longer ends where no letter follows. -/
theorem boundary_of_longest (front : List Char) {text rest : List Char} (ht : text ≠ [])
    (hr : ∃ r ∈ rules, Matches r.1 text)
    (hlongest : ∀ more, more <+: rest → more ≠ [] → ∀ r ∈ rules, ¬ Matches r.1 (text ++ more)) :
    Boundary (front ++ text) rest := by
  intro c hc d hd hletter
  rw [List.getLast?_append_of_ne_nil _ ht] at hc
  obtain ⟨more, rfl⟩ := List.head?_eq_some_iff.mp hd
  rw [← Bool.not_eq_true]
  intro hd
  obtain ⟨r, hr, hm⟩ := hr
  have htext : ∀ x ∈ text, letters.contains x = true := fun x hx =>
    contains_of_isRun isRun_letters (List.mem_map_of_mem hr) hm (List.mem_of_getLast? hc) hx hletter
  have hall : ∀ x ∈ text ++ [d], letters.contains x = true := by
    intro x hx
    rcases List.mem_append.mp hx with hx | hx
    · exact htext x hx
    · rwa [List.mem_singleton.mp hx]
  obtain ⟨r, hr, hm⟩ := matches_word (by simp) hall
  exact hlongest [d] ⟨more, rfl⟩ (List.cons_ne_nil d []) r hr hm

theorem Munch.boundary {front text rest : List Char} {a : Piece} (h : Munch front text rest a) :
    Boundary (front ++ text) rest :=
  let ⟨p, hr, hm⟩ := h.rule
  boundary_of_longest _ h.ne_nil ⟨(p, a), hr, hm⟩ h.longest

/-- No rule matches more than the next piece. -/
theorem not_matches_of_piece? {rest more : List Char} {n : Nat} {a : Piece} (hp : piece? rest = some (n, a))
    (hmore : more <+: rest.drop n) (hne : more ≠ []) {r : Pattern × Piece} (hr : r ∈ rules) :
    ¬ Matches r.1 (rest.take n ++ more) := by
  intro hm
  obtain ⟨left, hleft⟩ := hmore
  have htake : rest.take (n + more.length) = rest.take n ++ more := by
    rw [List.take_add, ← hleft, List.take_left' rfl]
  have hlength := congrArg List.length hleft
  rw [List.length_append, List.length_drop] at hlength
  have hpos := List.length_pos_of_ne_nil hne
  obtain ⟨j, hj⟩ := List.getElem?_of_mem hr
  unfold piece? at hp
  obtain ⟨m, hl, hp⟩ := Option.bind_eq_some_iff.mp hp
  obtain ⟨⟨q, b⟩, -, hp⟩ := Option.bind_eq_some_iff.mp hp
  dsimp only at hp
  split at hp
  · cases hp
  · obtain ⟨rfl, -⟩ := Prod.mk.inj (Option.some.inj hp)
    have := (Pattern.longest_eq_some_iff.mp hl).first (n := m.length + more.length) (i := j) (by omega)
      (accepts_iff.mpr ⟨r.1, r.2, hj, htake ▸ hm⟩)
    omega

/-- What is taken as the next piece is the longest one. -/
theorem munch_of_piece? {front rest : List Char} (hb : Boundary front rest) {n : Nat} {a : Piece}
    (hp : piece? rest = some (n, a)) : Munch front (rest.take n) (rest.drop n) a := by
  obtain ⟨hpos, hle⟩ := length_of_piece? hp
  obtain ⟨p, hr, hm⟩ := exists_rule_of_piece? hp
  have ht := ne_nil_of_matches hr hm
  obtain ⟨i, hi⟩ := List.getElem?_of_mem hr
  have hacc : Accepts patterns (rest.take n) i := accepts_iff.mpr ⟨p, a, hi, hm⟩
  have hlongest : ∀ more, more <+: rest.drop n → more ≠ [] → ∀ r ∈ rules, ¬ Matches r.1 (rest.take n ++ more) :=
    fun more hmore hne r hr => not_matches_of_piece? hp hmore hne hr
  have hafter := boundary_of_longest front ht ⟨(p, a), hr, hm⟩ hlongest
  refine ⟨ht, ⟨p, hr, hm⟩, ⟨i, hacc, fun j hj => rule_unique ht hj hacc⟩, hlongest, ?_⟩
  rintro rfl
  have hletters := letters_of_word hr hm
  refine ⟨hletters, fun c hc => ?_, fun d hd => ?_⟩
  · obtain ⟨d, ds, htake⟩ := List.exists_cons_of_ne_nil ht
    have hd : rest.head? = some d := by
      rw [← List.take_append_drop n rest, htake]
      rfl
    rw [← Bool.not_eq_true]
    intro hletter
    have hnot := hb c hc d hd hletter
    rw [hletters d (htake ▸ List.mem_cons_self)] at hnot
    cases hnot
  · obtain ⟨c, hc⟩ := Option.isSome_iff_exists.mp (List.getLast?_isSome.mpr ht)
    refine hafter c ?_ d hd (hletters c (List.mem_of_getLast? hc))
    rwa [List.getLast?_append_of_ne_nil _ ht]

/-! ## Kinds of tokens -/

/-- The words that are keywords. -/
def keywords : List (String × Symbol) :=
  [("lim", .limit), ("sum", .sum), ("Σ", .sum), ("prod", .product), ("Π", .product)]

/-- The kinds of the tokens that a piece stands for: those of its rule. A word is an identifier, unless the whole of
it is a keyword. -/
inductive Kinds (text : List Char) : Piece → List Symbol → Prop where
  | blank : Kinds text .blank []
  | number : Kinds text .number [.number]
  | identifier (h : ∀ s, (String.ofList text, s) ∉ keywords) : Kinds text .word [.identifier]
  | keyword {s : Symbol} (h : (String.ofList text, s) ∈ keywords) : Kinds text .word [s]
  | token (s : Symbol) : Kinds text (.token s) [s]
  | pair (first second : Symbol) : Kinds text (.pair first second) [first, second]

theorem keyword?_eq_some_iff {word : String} {s : Symbol} : keyword? word = some s ↔ (word, s) ∈ keywords := by
  constructor
  · intro h
    unfold keyword? at h
    split at h <;> cases h <;> decide
  · intro h
    have hall : ∀ k ∈ keywords, keyword? k.1 = some k.2 := by decide
    exact hall _ h

theorem kinds_iff {text : List Char} {a : Piece} {kinds : List Symbol} :
    Kinds text a kinds ↔ kinds = symbols (String.ofList text) a := by
  constructor
  · rintro (_ | _ | h | h | _ | _)
    · rfl
    · rfl
    · have hnone : keyword? (String.ofList text) = none :=
        Option.eq_none_iff_forall_ne_some.mpr fun s hs => h s (keyword?_eq_some_iff.mp hs)
      rw [symbols, hnone, Option.getD_none]
    · rw [symbols, keyword?_eq_some_iff.mpr h, Option.getD_some]
    · rfl
    · rfl
  · rintro rfl
    cases a with
    | blank => exact .blank
    | number => exact .number
    | word =>
      rw [symbols]
      cases hk : keyword? (String.ofList text) with
      | none =>
        refine .identifier fun s hs => ?_
        rw [keyword?_eq_some_iff.mpr hs] at hk
        cases hk
      | some s => exact .keyword (keyword?_eq_some_iff.mp hk)
    | token s => exact .token s
    | pair first second => exact .pair first second

/-! ## Cutting a text -/

/-- What is left of a text is cut into longest pieces, each of which stands for tokens of the kinds that its rule
says, up to the end or to a character where no rule matches anything. -/
inductive Munched : List Char → List Char → Scan → Prop where
  | finish {front : List Char} : Munched front [] ⟨[.finish (placeOf front)], none⟩
  | piece {front text left rest : List Char} {a : Piece} {kinds : List Symbol} {scan : Scan}
      (hrest : rest = text ++ left) (h : Munch front text left a) (hkinds : Kinds text a kinds)
      (hleft : Munched (front ++ text) left scan) :
      Munched front rest
        ⟨kinds.map (fun s => ⟨s, String.ofList text, ⟨placeOf front, placeOf (front ++ text)⟩, .nothing⟩) ++ scan.tokens,
          scan.failure⟩
  | stuck {front rest : List Char} {c : Char} (h : ∀ lexeme, lexeme <+: c :: rest → ∀ r ∈ rules, ¬ Matches r.1 lexeme) :
      Munched front (c :: rest) ⟨[], some (.unrecognized (String.ofList [c]) (placeOf front))⟩

/-- Of two longest pieces in one place neither is longer. -/
theorem Munch.eq {front text left text' left' : List Char} {a a' : Piece} (h : Munch front text left a)
    (h' : Munch front text' left' a') (heq : text ++ left = text' ++ left') :
    text = text' ∧ left = left' ∧ a = a' := by
  have hnot : ∀ {text left text' more : List Char} {a a' : Piece}, Munch front text left a →
      Munch front text' (more ++ left) a' → text = text' ++ more → more = [] := by
    intro text left text' more a a' h h' heq
    by_contra hne
    obtain ⟨p, hr, hm⟩ := h.rule
    exact h'.longest more (List.prefix_append more left) hne (p, a) hr (heq ▸ hm)
  have hsame : text = text' ∧ left = left' := by
    rcases List.append_eq_append_iff.mp heq with ⟨more, ht, hl⟩ | ⟨more, ht, hl⟩
    · rw [hl] at h
      obtain rfl := hnot h' h ht
      exact ⟨by rw [ht, List.append_nil], hl⟩
    · rw [hl] at h'
      obtain rfl := hnot h h' ht
      exact ⟨by rw [ht, List.append_nil], hl.symm⟩
  obtain ⟨rfl, rfl⟩ := hsame
  obtain ⟨p, hr, hm⟩ := h.rule
  obtain ⟨p', hr', hm'⟩ := h'.rule
  obtain ⟨i, hi⟩ := List.getElem?_of_mem hr
  obtain ⟨j, hj⟩ := List.getElem?_of_mem hr'
  obtain rfl := h.only.unique (accepts_iff.mpr ⟨p, a, hi, hm⟩) (accepts_iff.mpr ⟨p', a', hj, hm'⟩)
  cases hi.symm.trans hj
  exact ⟨rfl, rfl, rfl⟩

/-- Where no rule matches there is no piece. -/
theorem Munch.not_stuck {front text left rest : List Char} {a : Piece} (h : Munch front text left a)
    (hrest : rest = text ++ left) (hstuck : ∀ lexeme, lexeme <+: rest → ∀ r ∈ rules, ¬ Matches r.1 lexeme) : False :=
  let ⟨p, hr, hm⟩ := h.rule
  hstuck text ⟨left, hrest.symm⟩ (p, a) hr hm

/-- A text is cut into longest pieces in one way only. -/
theorem Munched.eq {front rest : List Char} {scan scan' : Scan} (h : Munched front rest scan)
    (h' : Munched front rest scan') : scan = scan' := by
  induction h generalizing scan' with
  | finish =>
    cases h' with
    | finish => rfl
    | piece hrest h _ _ => exact absurd (List.append_eq_nil_iff.mp hrest.symm).1 h.ne_nil
  | piece hrest h hkinds _ ih =>
    cases h' with
    | finish => exact absurd (List.append_eq_nil_iff.mp hrest.symm).1 h.ne_nil
    | piece hrest' h' hkinds' hleft' =>
      obtain ⟨rfl, rfl, rfl⟩ := h.eq h' (hrest.symm.trans hrest')
      rw [ih hleft', kinds_iff.mp hkinds, kinds_iff.mp hkinds']
    | stuck hstuck => exact (h.not_stuck hrest hstuck).elim
  | stuck hstuck =>
    cases h' with
    | piece hrest h _ _ => exact (h.not_stuck hrest hstuck).elim
    | stuck _ => rfl

/-- Scanning cuts what is left of a text into longest pieces. -/
theorem munched_scan {front rest : List Char} (hb : Boundary front rest) {fuel : Nat} (hf : rest.length ≤ fuel) :
    Munched front rest (scan fuel (placeOf front) rest) := by
  induction fuel generalizing front rest with
  | zero =>
    obtain rfl := List.eq_nil_of_length_eq_zero (Nat.le_zero.mp hf)
    exact .finish
  | succ fuel ih =>
    cases rest with
    | nil => exact .finish
    | cons c cs =>
      cases hp : piece? (c :: cs) with
      | none =>
        rw [scan_of_piece?_eq_none hp]
        refine .stuck ?_
        rintro lexeme ⟨more, hmore⟩ r hr hm
        have hlexeme : (c :: cs).take lexeme.length = lexeme := by rw [← hmore, List.take_left' rfl]
        refine not_matches_of_piece?_eq_none hp (List.mem_map_of_mem hr) ?_ (hlexeme.symm ▸ hm)
        rw [← hmore, List.length_append]
        exact Nat.le_add_right _ _
      | some found =>
        obtain ⟨n, a⟩ := found
        have hmunch := munch_of_piece? hb hp
        have hleft : ((c :: cs).drop n).length ≤ fuel := by
          have := (length_of_piece? hp).1
          rw [List.length_drop]
          omega
        rw [scan_cons hp]
        dsimp only
        rw [after_placeOf]
        exact .piece (List.take_append_drop n _).symm hmunch (kinds_iff.mpr rfl) (ih hmunch.boundary hleft)

/-- No text matches two rules, the empty one not even one. -/
theorem accepts_unique (text : List Char) (i j : Nat) (hi : Accepts patterns text i) (hj : Accepts patterns text j) :
    i = j := by
  obtain ⟨p, a, hr, hm⟩ := accepts_iff.mp hi
  exact rule_unique (ne_nil_of_matches (List.mem_of_getElem? hr) hm) hi hj

end Lexer

open Lexer in
/-- The tokens of a text are those of its longest pieces and of nothing else, and so are the tokens that are read one
by one at byte offsets. The match that is read at an offset is the one that an automaton over bytes finds there, if it
was made for the rules. -/
theorem munches_iff (text : String) :
    (∀ scan, Munched [] text.toList scan ↔ scan = tokenize text) ∧
      (stream text).Yields (tokenize text).results ∧
      ∀ {σ : Type} {a : ByteAutomaton σ} {start : σ}, a.Compiled start (AcceptsBytes patterns) →
        ∀ offset, a.longestMatch? text.toByteArray.data.toList offset =
          some (Pattern.longestAt patterns text.toList offset) := by
  have hmunched : Munched [] text.toList (tokenize text) :=
    munched_scan (fun c hc => by cases hc) (Nat.le_refl text.toList.length)
  refine ⟨fun scan => ⟨fun h => h.eq hmunched, ?_⟩, @yields_scan [] text.toList {} _ (Nat.le_refl _), ?_⟩
  · rintro rfl
    exact hmunched
  · intro σ a start h offset
    rw [← Pattern.acceptsFirst_eq accepts_unique] at h
    rw [← Pattern.utf8_toList]
    exact h.longestMatch?_eq text.toList offset

open Lexer in
/-- The three bytes of `≠` are matched by the rule that matches `!=`, and this is the token that is read. -/
theorem munches_notEqual :
    (Pattern.byDerivatives patterns).Compiled (.start patterns) (AcceptsBytes patterns) ∧
      (Pattern.byDerivatives patterns).longestMatch? "x ≠2".toByteArray.data.toList 2 = some (some ⟨12, 3⟩) ∧
      (tokenize "x ≠2").tokens.map (·.symbol) = [.identifier, .notEqual, .number, .finish] ∧
      Munched [] "x ≠2".toList (tokenize "x ≠2") := by
  have h : (Pattern.byDerivatives patterns).Compiled (.start patterns) (AcceptsBytes patterns) := by
    rw [← Pattern.acceptsFirst_eq accepts_unique]
    exact Pattern.compiled_byDerivatives patterns
  obtain ⟨hmunched, -, hsearch⟩ := munches_iff "x ≠2"
  refine ⟨h, ?_, by decide +kernel, (hmunched _).mpr rfl⟩
  rw [hsearch h]
  decide +kernel

end Formula
