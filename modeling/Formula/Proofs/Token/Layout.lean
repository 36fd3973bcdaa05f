import Mathlib.Data.List.Induction
import Formula.Proofs.Token.Brackets
import Formula.Token.Stream

/-!
# Nothing lost and nothing invented

A text is a row of blanks and lexemes, and its tokens say where each lexeme stands (`Laid`). A place is told by the
text in front of it: its newlines, and the characters behind the last of them (`placeOf`). Scanning reaches the end
of the text, or a character where no rule matches, and up to there the text is laid out as the tokens say
(`scan_laid`). Tokens on demand are the same tokens (`yields_scan`).
-/

namespace Formula

open Pattern (Matches)
open Text (Position)

namespace Lexer

/-! ## Places -/

/-- The position behind a text: one line for each newline, one column for each character behind the last. -/
def placeOf (front : List Char) : Position :=
  ⟨1 + front.count '\n', 1 + (front.reverse.takeWhile (· ≠ '\n')).length⟩

theorem next_placeOf (front : List Char) (c : Char) : (placeOf front).next c = placeOf (front ++ [c]) := by
  unfold Position.next placeOf
  split
  · rename_i hc
    subst hc
    simp
    omega
  · rename_i hc
    simp [hc]
    omega

theorem after_placeOf (front text : List Char) : (placeOf front).after text = placeOf (front ++ text) := by
  induction text generalizing front with
  | nil => rw [List.append_nil]; rfl
  | cons c text ih =>
    calc (placeOf front).after (c :: text) = ((placeOf front).next c).after text := rfl
      _ = placeOf (front ++ c :: text) := by rw [next_placeOf, ih, List.append_assoc]; rfl

/-! ## Layout -/

/-- The text is a row of blanks and lexemes, and the tokens are those of the lexemes in order, each with the places
where its lexeme begins and ends. The two tokens of a pair share one character. -/
inductive Laid : List Char → List Token → Prop where
  | start : Laid [] []
  | blanks {front gap : List Char} {tokens : List Token} (h : Laid front tokens) (hg : IsGap gap) :
      Laid (front ++ gap) tokens
  | token {front text : List Char} {tokens : List Token} {p : Pattern} {a : Piece} {s : Symbol}
      (h : Laid front tokens) (ht : text ≠ []) (hr : (p, a) ∈ rules) (hm : Matches p text)
      (hs : symbols (String.ofList text) a = [s]) :
      Laid (front ++ text)
        (tokens ++ [⟨s, String.ofList text, ⟨placeOf front, placeOf (front ++ text)⟩, .nothing⟩])
  | pair {front : List Char} {c : Char} {tokens : List Token} {p : Pattern} {first second : Symbol}
      (h : Laid front tokens) (hr : (p, .pair first second) ∈ rules) (hm : Matches p [c]) :
      Laid (front ++ [c])
        (tokens ++ [⟨first, String.ofList [c], ⟨placeOf front, placeOf (front ++ [c])⟩, .nothing⟩,
          ⟨second, String.ofList [c], ⟨placeOf front, placeOf (front ++ [c])⟩, .nothing⟩])

/-- Only the end of the input is read as such. -/
theorem Laid.symbol_ne_finish {front : List Char} {tokens : List Token} (h : Laid front tokens) :
    ∀ t ∈ tokens, t.symbol ≠ .finish := by
  induction h with
  | start => simp
  | blanks _ _ ih => exact ih
  | @token front text tokens p a s _ _ hr _ hs ih =>
    have hnot := finish_not_mem_symbols hr (String.ofList text)
    rw [hs, List.mem_singleton] at hnot
    exact List.forall_mem_append.mpr ⟨ih, List.forall_mem_singleton.mpr (Ne.symm hnot)⟩
  | @pair front c tokens p first second _ hr _ ih =>
    have hnot := finish_not_mem_symbols hr (String.ofList [c])
    rw [symbols, List.mem_pair, not_or] at hnot
    exact List.forall_mem_append.mpr ⟨ih, by simpa using ⟨Ne.symm hnot.1, Ne.symm hnot.2⟩⟩

/-- No lexeme is empty. -/
theorem Laid.lexeme_ne_empty {front : List Char} {tokens : List Token} (h : Laid front tokens) :
    ∀ t ∈ tokens, t.lexeme ≠ "" := by
  induction h with
  | start => simp
  | blanks _ _ ih => exact ih
  | token _ ht _ _ _ ih => exact List.forall_mem_append.mpr ⟨ih, by simpa using ht⟩
  | pair _ _ _ ih => exact List.forall_mem_append.mpr ⟨ih, by simp⟩

theorem isGap_of_matches_blanks {text : List Char} (h : Matches blanks text) : IsGap text := by
  have hin : ∀ {c}, Pattern.In [⟨[.blank], false⟩] c → Text.isBlank c = true := by
    intro c ⟨s, hs, hc⟩
    rw [List.mem_singleton.mp hs] at hc
    simpa [CharSet.contains, CharItem.contains] using hc
  intro c hc
  obtain ⟨d, ds, rfl⟩ := List.exists_cons_of_ne_nil (List.ne_nil_of_mem hc)
  rcases List.mem_cons.mp hc with rfl | hc
  · exact hin (h.within.head c rfl)
  · obtain ⟨s, hs, hsc⟩ := h.within.tail c hc
    exact hin ⟨s, by simpa [blanks, Pattern.atLeastOne, Pattern.heads, Pattern.tails] using hs, hsc⟩

/-- The tokens of a lexeme at a place. -/
def tokensAt (front text : List Char) (a : Piece) : List Token :=
  (symbols (String.ofList text) a).map fun s =>
    ⟨s, String.ofList text, ⟨placeOf front, placeOf (front ++ text)⟩, .nothing⟩

/-- One more piece is laid out. -/
theorem Laid.piece {front text : List Char} {tokens : List Token} {p : Pattern} {a : Piece} (h : Laid front tokens)
    (hr : (p, a) ∈ rules) (hm : Matches p text) : Laid (front ++ text) (tokens ++ tokensAt front text a) := by
  have ht := ne_nil_of_matches hr hm
  have hblank : ∀ r ∈ rules, r.2 = .blank → r.1 = Lexer.blanks := by decide
  have hpair : ∀ r ∈ rules, ∀ s s', r.2 = .pair s s' → r.1.sole?.isSome = true := by
    intro r hr
    have hall : ∀ r ∈ rules, r.1.sole?.isSome = true ∨ r.2 = .blank ∨ r.2 = .number ∨ r.2 = .word ∨
        r.2 = .token .notEqual ∨ r.2 = .token .arrow := by decide
    rcases hall r hr with h | h | h | h | h | h <;> simp [h]
  cases a with
  | blank =>
    rw [tokensAt, symbols, List.map_nil, List.append_nil]
    exact h.blanks (isGap_of_matches_blanks (hblank _ hr rfl ▸ hm))
  | pair first second =>
    obtain ⟨c, hc⟩ := Option.isSome_iff_exists.mp (hpair _ hr first second rfl)
    obtain rfl := Pattern.eq_singleton_of_sole? hc hm
    exact h.pair hr hm
  | number => exact h.token ht hr hm rfl
  | word => exact h.token ht hr hm rfl
  | token s => exact h.token ht hr hm rfl

/-- Behind a text that is laid out, scanning lays out the rest, or it stops at a character where no piece begins. -/
theorem scan_laid {front rest : List Char} {tokens : List Token} (h : Laid front tokens) {fuel : Nat}
    (hf : rest.length ≤ fuel) :
    (∃ more, scan fuel (placeOf front) rest = ⟨more ++ [.finish (placeOf (front ++ rest))], none⟩ ∧
      Laid (front ++ rest) (tokens ++ more)) ∨
    ∃ read c left more, rest = read ++ c :: left ∧ piece? (c :: left) = none ∧
      scan fuel (placeOf front) rest =
        ⟨more, some (.unrecognized (String.ofList [c]) (placeOf (front ++ read)))⟩ ∧
      Laid (front ++ read) (tokens ++ more) := by
  induction fuel generalizing front rest tokens with
  | zero =>
    obtain rfl := List.eq_nil_of_length_eq_zero (Nat.le_zero.mp hf)
    exact .inl ⟨[], by rw [List.append_nil]; rfl, by simpa using h⟩
  | succ fuel ih =>
    cases rest with
    | nil => exact .inl ⟨[], by rw [List.append_nil]; rfl, by simpa using h⟩
    | cons c cs =>
      cases hp : piece? (c :: cs) with
      | none => exact .inr ⟨[], c, cs, [], rfl, hp, by rw [scan_of_piece?_eq_none hp, List.append_nil], by simpa using h⟩
      | some found =>
        obtain ⟨n, a⟩ := found
        obtain ⟨hpos, -⟩ := length_of_piece? hp
        obtain ⟨p, hr, hm⟩ := exists_rule_of_piece? hp
        have hleft : ((c :: cs).drop n).length ≤ fuel := by
          rw [List.length_drop]
          omega
        have hwhole : front ++ (c :: cs) = (front ++ (c :: cs).take n) ++ (c :: cs).drop n := by
          rw [List.append_assoc, List.take_append_drop]
        rw [scan_cons hp]
        dsimp only
        rw [after_placeOf]
        rcases ih (h.piece hr hm) hleft with ⟨more, hscan, hlaid⟩ | ⟨read, d, left, more, hrest, hnone, hscan, hlaid⟩
        · refine .inl ⟨tokensAt front ((c :: cs).take n) a ++ more, ?_, ?_⟩
          · rw [hscan, hwhole, List.append_assoc (tokensAt front ((c :: cs).take n) a)]
            rfl
          · rwa [hwhole, ← List.append_assoc tokens]
        · refine .inr ⟨(c :: cs).take n ++ read, d, left, tokensAt front ((c :: cs).take n) a ++ more, ?_, hnone, ?_, ?_⟩
          · rw [List.append_assoc, ← hrest, List.take_append_drop]
          · rw [hscan, ← List.append_assoc]
            rfl
          · rwa [← List.append_assoc, ← List.append_assoc tokens]

/-! ## Tokens on demand -/

/-- A stream gives these tokens and errors one after the other, and then nothing for good. -/
inductive Stream.Yields : Stream → List (Except Error Token) → Prop where
  | nothing {s : Stream} (h : s.next = (none, s)) : Yields s []
  | next {s s' : Stream} {r : Except Error Token} {rs : List (Except Error Token)} (h : s.next = (some r, s'))
      (hrest : Yields s' rs) : Yields s (r :: rs)

/-- What a stream gives for a scan. -/
def Scan.results (scan : Scan) : List (Except Error Token) :=
  scan.tokens.map .ok ++ scan.failure.toList.map .error

/-- A text with its front read. -/
def Stream.behind (front rest : List Char) (position : Position) : Stream :=
  { text := front ++ rest, cursor := ⟨Pattern.byteLength front, position⟩ }

/-- The lexeme at a byte offset is the next piece of the characters from there on. -/
theorem lexeme?_append (front rest : List Char) :
    lexeme? (front ++ rest) (Pattern.byteLength front) = (piece? rest).map fun (n, a) => (rest.take n, a) := by
  unfold lexeme? piece? Pattern.longestAt
  dsimp only
  rw [(Pattern.bytes_append front rest).2]
  cases hl : Pattern.longest patterns rest with
  | none => rfl
  | some m =>
    have hslice := (Pattern.bytes_append (rest.take m.length) (rest.drop m.length)).1
    rw [List.take_append_drop] at hslice
    have hempty : Pattern.byteLength (rest.take m.length) = 0 ↔ m.length = 0 := by
      have hle := (Pattern.longest_eq_some_iff.mp hl).length_le
      rw [Pattern.byteLength_eq_zero_iff, ← List.length_eq_zero_iff, List.length_take, Nat.min_eq_left hle]
    simp only [Option.map_some, Option.bind_eq_bind, Option.bind_some, hslice, hempty]
    cases rules[m.pattern]? with
    | none => rfl
    | some r => by_cases h0 : m.length = 0 <;> simp [h0]

section

variable (front : List Char) (position : Position)

/-- A stream that has not ended gives what is read next. -/
theorem next_behind (rest : List Char) :
    (Stream.behind front rest position).next =
      match (Stream.behind front rest position).read with
      | (.ok token, s) => (some (.ok token), s)
      | (.error e, s) => (some (.error e), { s with done := true }) := rfl

/-- At the end of the text. -/
theorem read_behind_nil :
    (Stream.behind front [] position).read =
      (.ok (.finish position), { Stream.behind front [] position with done := true }) := by
  rw [Stream.read, if_pos]
  · rfl
  · simp [Stream.behind]

variable {c : Char} {cs : List Char}

theorem not_at_end (c : Char) (cs : List Char) : ¬ Pattern.byteLength (Stream.behind front (c :: cs) position).text ≤
    (Stream.behind front (c :: cs) position).cursor.offset := by
  have := c.utf8Size_pos
  dsimp only [Stream.behind]
  rw [Pattern.byteLength_append, Pattern.byteLength]
  omega

/-- Where no piece begins. -/
theorem read_behind_of_eq_none (hp : piece? (c :: cs) = none) :
    (Stream.behind front (c :: cs) position).read =
      (.error (.unrecognized (String.ofList [c]) position), Stream.behind front (c :: cs) position) := by
  have hlexeme := lexeme?_append front (c :: cs)
  rw [hp] at hlexeme
  rw [Stream.read, if_neg (not_at_end front position c cs)]
  split
  · dsimp only [Stream.behind]
    rw [(Pattern.bytes_append front (c :: cs)).2]
    rfl
  · rename_i h
    cases h.symm.trans hlexeme

/-- One piece. -/
theorem read_behind {n : Nat} {a : Piece} (hp : piece? (c :: cs) = some (n, a)) :
    (Stream.behind front (c :: cs) position).read =
      let text := (c :: cs).take n
      let rest := Stream.behind (front ++ text) ((c :: cs).drop n) (position.after text)
      let token (s : Symbol) : Token := ⟨s, String.ofList text, ⟨position, position.after text⟩, .nothing⟩
      match symbols (String.ofList text) a with
      | [] => rest.read
      | first :: second => (.ok (token first), { rest with pending := second.head?.map token }) := by
  have hlexeme := lexeme?_append front (c :: cs)
  rw [hp, Option.map_some] at hlexeme
  have hmoved : (Stream.behind front (c :: cs) position).cursor.advance (String.ofList ((c :: cs).take n)) =
      (⟨position, position.after ((c :: cs).take n)⟩,
        ⟨Pattern.byteLength (front ++ (c :: cs).take n), position.after ((c :: cs).take n)⟩) := by
    simp [Stream.behind, Text.Cursor.advance, Pattern.utf8ByteSize_ofList, Pattern.byteLength_append]
  have hwhole : (front ++ (c :: cs).take n) ++ (c :: cs).drop n = front ++ c :: cs := by
    rw [List.append_assoc, List.take_append_drop]
  rw [Stream.read, if_neg (not_at_end front position c cs)]
  split
  · rename_i h
    cases h.symm.trans hlexeme
  · rename_i h
    cases h.symm.trans hlexeme
    dsimp only
    rewrite [hmoved, Stream.behind, Stream.behind, hwhole]
    cases symbols (String.ofList ((c :: cs).take n)) a <;> rfl

end

/-- A stream that has not ended gives what another one gives that reads the same next. -/
theorem Stream.Yields.of_read_eq {front rest front' rest' : List Char} {position position' : Position}
    {rs : List (Except Error Token)} (h : (Stream.behind front' rest' position').Yields rs)
    (hread : (Stream.behind front rest position).read = (Stream.behind front' rest' position').read) :
    (Stream.behind front rest position).Yields rs := by
  have hnext : (Stream.behind front rest position).next = (Stream.behind front' rest' position').next := by
    rw [next_behind, next_behind, hread]
  cases h with
  | nothing h =>
    rw [next_behind] at h
    split at h <;> cases h
  | next h hrest => exact .next (hnext.trans h) hrest

/-- A stream gives what a scan finds. -/
theorem yields_scan {front rest : List Char} {position : Position} {fuel : Nat} (hf : rest.length ≤ fuel) :
    (Stream.behind front rest position).Yields (scan fuel position rest).results := by
  have hend : ∀ {front position} fuel, (Stream.behind front [] position).Yields (scan fuel position []).results := by
    intro front position fuel
    rw [scan_nil]
    refine .next ?_ (.nothing (s := { Stream.behind front [] position with done := true }) rfl)
    rw [next_behind, read_behind_nil]
  induction fuel generalizing front rest position with
  | zero =>
    obtain rfl := List.eq_nil_of_length_eq_zero (Nat.le_zero.mp hf)
    exact hend 0
  | succ fuel ih =>
    cases rest with
    | nil => exact hend (fuel + 1)
    | cons c cs =>
      cases hp : piece? (c :: cs) with
      | none =>
        rw [scan_of_piece?_eq_none hp]
        refine .next ?_ (.nothing (s := { Stream.behind front (c :: cs) position with done := true }) rfl)
        rw [next_behind, read_behind_of_eq_none front position hp]
      | some found =>
        obtain ⟨n, a⟩ := found
        have hread := read_behind front position hp
        have hleft : ((c :: cs).drop n).length ≤ fuel := by
          have := (length_of_piece? hp).1
          rw [List.length_drop]
          omega
        have hrest := @ih (front ++ (c :: cs).take n) ((c :: cs).drop n) (position.after ((c :: cs).take n)) hleft
        rw [scan_cons hp]
        dsimp only at hread ⊢
        cases a with
        | blank => exact hrest.of_read_eq hread
        | pair first second => exact .next (by rw [next_behind, hread]; rfl) (.next rfl hrest)
        | number => exact .next (by rw [next_behind, hread]; rfl) hrest
        | word => exact .next (by rw [next_behind, hread]; rfl) hrest
        | token s => exact .next (by rw [next_behind, hread]; rfl) hrest

end Lexer

open Lexer in
/-- Scanning ends with the end of the input or with one error, and then there is nothing more. The text up to there
is laid out as the tokens say; an error is at a character where no rule matches anything. -/
theorem tokenize_covers (text : String) :
    (stream text).Yields (tokenize text).results ∧
      ((∃ words, tokenize text = ⟨words ++ [.finish (placeOf text.toList)], none⟩ ∧ Laid text.toList words ∧
          ∀ t ∈ words, t.symbol ≠ .finish) ∨
        ∃ front c rest words, text.toList = front ++ c :: rest ∧
          tokenize text = ⟨words, some (.unrecognized (String.ofList [c]) (placeOf front))⟩ ∧ Laid front words ∧
          (∀ t ∈ words, t.symbol ≠ .finish) ∧
          ∀ r ∈ rules, ∀ lexeme, lexeme <+: c :: rest → ¬ Matches r.1 lexeme) := by
  have hyields := @yields_scan [] text.toList {} _ (Nat.le_refl _)
  refine ⟨hyields, ?_⟩
  rcases scan_laid .start (Nat.le_refl text.toList.length) with
    ⟨words, hscan, hlaid⟩ | ⟨front, c, rest, words, htext, hnone, hscan, hlaid⟩
  · exact .inl ⟨words, hscan, hlaid, hlaid.symbol_ne_finish⟩
  · refine .inr ⟨front, c, rest, words, htext, hscan, hlaid, hlaid.symbol_ne_finish, ?_⟩
    rintro r hr lexeme ⟨more, hmore⟩ hm
    have hlexeme : (c :: rest).take lexeme.length = lexeme := by
      rw [← hmore, List.take_left' rfl]
    refine not_matches_of_piece?_eq_none hnone (List.mem_map_of_mem hr) ?_ (hlexeme.symm ▸ hm)
    rw [← hmore, List.length_append]
    exact Nat.le_add_right _ _

end Formula
