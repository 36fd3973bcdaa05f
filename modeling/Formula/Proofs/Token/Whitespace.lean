import Mathlib.Data.List.Induction
import Formula.Proofs.Token.Seam

/-!
# Texts with white space between them

A blank ends every piece but a run of blanks, so two texts with white space between them are scanned one by one
(`tokenize_append_gap`). The tokens of the second text stand where the first text and the white space end: on its
first line they are moved by lines and columns, on its other lines by lines only (`Text.Position.moved`). White
space in the place of other white space therefore changes positions only.
-/

namespace Formula

namespace Text

/-- The position `p` in a text that stands at `base`. -/
def Position.moved (base p : Position) : Position :=
  if p.line = 1 then ⟨base.line, base.column + (p.column - 1)⟩ else ⟨base.line + (p.line - 1), p.column⟩

/-- Lines and columns are counted from one. -/
structure Position.Counted (p : Position) : Prop where
  line : 1 ≤ p.line
  column : 1 ≤ p.column

theorem Position.Counted.next {p : Position} (h : p.Counted) (c : Char) : (p.next c).Counted := by
  have := h.line
  have := h.column
  unfold Position.next
  split <;> constructor <;> dsimp only <;> omega

theorem Position.Counted.after {p : Position} (h : p.Counted) (text : List Char) : (p.after text).Counted := by
  induction text generalizing p with
  | nil => exact h
  | cons c text ih => exact ih (h.next c)

theorem Position.moved_next {p : Position} (h : p.Counted) (base : Position) (c : Char) :
    (base.moved p).next c = base.moved (p.next c) := by
  have hline : p.line ≠ 0 := Nat.ne_of_gt h.line
  have hcolumn := h.column
  by_cases hc : c = '\n' <;> by_cases hp : p.line = 1 <;> simp [Position.moved, Position.next, hc, hp, hline] <;> omega

/-- Reading on from a moved position. -/
theorem Position.moved_after {p : Position} (h : p.Counted) (base : Position) (text : List Char) :
    (base.moved p).after text = base.moved (p.after text) := by
  induction text generalizing p with
  | nil => rfl
  | cons c text ih =>
    calc (base.moved p).after (c :: text) = ((base.moved p).next c).after text := rfl
      _ = base.moved (p.after (c :: text)) := by rw [Position.moved_next h, ih (h.next c)]; rfl

end Text

open Text (Position)

/-! ## Scans in other places -/

/-- The token with other positions. -/
def Token.placed (f : Position → Position) (t : Token) : Token :=
  { t with span := ⟨f t.span.start, f t.span.stop⟩ }

/-- What stops a scan, with another position. -/
def Error.placed (f : Position → Position) : Error → Error
  | .unrecognized text position => .unrecognized text (f position)
  | e => e

/-- The scan with other positions. -/
def Lexer.Scan.placed (f : Position → Position) (scan : Scan) : Scan :=
  ⟨scan.tokens.map (·.placed f), scan.failure.map (·.placed f)⟩

/-- Tokens in front of a scan. -/
def Lexer.Scan.prepend (words : List Token) (scan : Scan) : Scan := ⟨words ++ scan.tokens, scan.failure⟩

theorem Lexer.Scan.prepend_placed (f : Position → Position) (words : List Token) (scan : Scan) :
    (scan.prepend words).placed f = (scan.placed f).prepend (words.map (·.placed f)) := by
  simp [Scan.placed, Scan.prepend]

theorem Lexer.Scan.placed_placed (f g : Position → Position) (scan : Scan) :
    (scan.placed f).placed g = scan.placed (g ∘ f) := by
  have htoken : ∀ t : Token, (t.placed f).placed g = t.placed (g ∘ f) := fun _ => rfl
  have herror : ∀ e : Error, (e.placed f).placed g = e.placed (g ∘ f) := by
    intro e
    cases e <;> rfl
  simp [placed, htoken, herror, Function.comp_def]

theorem IsGap.append {gap gap' : List Char} (h : IsGap gap) (h' : IsGap gap') : IsGap (gap ++ gap') :=
  List.forall_mem_append.mpr ⟨h, h'⟩

namespace Lexer

/-- Where a text stands changes the positions only. -/
theorem scan_moved {text : List Char} {fuel : Nat} {p : Position} (h : p.Counted) (base : Position) :
    scan fuel (base.moved p) text = (scan fuel p text).placed base.moved := by
  induction fuel generalizing text p with
  | zero => cases text <;> rfl
  | succ fuel ih =>
    cases text with
    | nil => rfl
    | cons c cs =>
      cases hp : piece? (c :: cs) with
      | none =>
        rw [scan_of_piece?_eq_none hp, scan_of_piece?_eq_none hp]
        rfl
      | some found =>
        obtain ⟨n, a⟩ := found
        rw [scan_cons hp, scan_cons hp]
        dsimp only
        rw [Position.moved_after h, ih (h.after _), Scan.placed, Scan.placed, List.map_append, List.map_map]
        rfl

/-! ## White space -/

theorem isRun_blanks : isRun ⟨[.blank], false⟩ = true := by
  decide

theorem contains_blank (c : Char) : (CharSet.mk [.blank] false).contains c = Text.isBlank c := by
  simp [CharSet.contains, CharItem.contains]

/-- Where a run of blanks begins or ends there is a seam. -/
theorem seam_of_isBlank {text rest : List Char}
    (h : ∀ c ∈ text.getLast?, ∀ d ∈ rest.head?, Text.isBlank c ≠ Text.isBlank d) : Seam text rest := by
  refine seam_of_isRun isRun_blanks fun c hc d hd => ?_
  rw [contains_blank, contains_blank]
  exact h c hc d hd

/-- White space alone. -/
theorem scan_of_isGap {gap : List Char} (hg : IsGap gap) {fuel : Nat} (hf : gap.length ≤ fuel) (position : Position) :
    scan fuel position gap = ⟨[.finish (position.after gap)], none⟩ := by
  by_cases hne : gap = []
  · subst hne
    rw [scan_nil]
    rfl
  · have hpos := List.length_pos_of_ne_nil hne
    obtain ⟨fuel, rfl⟩ : ∃ k, fuel = k + 1 := ⟨fuel - 1, by omega⟩
    have hp : piece? (gap ++ []) = some (gap.length, .blank) :=
      piece?_append (by simp [rules]) (hg.matches_blanks hne) hne (by simp)
    have := scan_append hne hp fuel position
    rwa [List.append_nil, scan_nil] at this

/-- White space at the front is passed over. -/
theorem scan_gap_append {gap : List Char} (hg : IsGap gap) {rest : List Char} {fuel : Nat}
    (hf : gap.length + rest.length ≤ fuel) (position : Position) :
    scan fuel position (gap ++ rest) = scan fuel (position.after gap) rest := by
  -- first where no more white space follows
  have hskip : ∀ {gap rest : List Char}, IsGap gap → (∀ d ∈ rest.head?, Text.isBlank d = false) →
      gap.length + rest.length ≤ fuel → ∀ position,
        scan fuel position (gap ++ rest) = scan fuel (position.after gap) rest := by
    intro gap rest hg hd hf position
    have hseam : Seam gap rest := by
      refine seam_of_isBlank fun c hc d hdr => ?_
      rw [hg c (List.mem_of_getLast? hc), hd d hdr]
      decide
    rw [scan_append_of_seam hseam hf, scan_of_isGap hg (by omega)]
    rfl
  obtain ⟨more, rest', rfl, hmore, hrest'⟩ : ∃ more rest', rest = more ++ rest' ∧ IsGap more ∧
      ∀ d ∈ rest'.head?, Text.isBlank d = false := by
    refine ⟨rest.takeWhile Text.isBlank, rest.dropWhile Text.isBlank, List.takeWhile_append_dropWhile.symm,
      List.all_eq_true.mp List.all_takeWhile, fun d hd => ?_⟩
    have := List.head?_dropWhile_not Text.isBlank rest
    rw [hd] at this
    simpa using this
  rw [List.length_append] at hf
  rw [← List.append_assoc, hskip (hg.append hmore) hrest' (by rw [List.length_append]; omega),
    hskip hmore hrest' (by omega), Position.after_append]

/-- A text ends with white space, if only with an empty run of it. -/
theorem exists_gap_behind (text : List Char) : ∃ front gap, text = front ++ gap ∧ IsGap gap ∧
    ∀ c ∈ front.getLast?, Text.isBlank c = false := by
  induction text using List.reverseRecOn with
  | nil => exact ⟨[], [], rfl, by simp [IsGap], by simp⟩
  | append_singleton text c ih =>
    cases hc : Text.isBlank c with
    | true =>
      obtain ⟨front, gap, rfl, hgap, hfront⟩ := ih
      exact ⟨front, gap ++ [c], by rw [List.append_assoc], hgap.append (by simpa [IsGap] using hc), hfront⟩
    | false => exact ⟨text ++ [c], [], by simp, by simp [IsGap], by simpa using hc⟩

/-- A text is scanned by itself up to the white space behind it. -/
theorem scan_append_gap {text gap : List Char} (hg : IsGap gap) (hne : gap ≠ []) {rest : List Char} {fuel : Nat}
    (hf : text.length + gap.length + rest.length ≤ fuel) (position : Position) :
    scan fuel position (text ++ gap ++ rest) =
      (scan fuel position text).andThen (scan fuel (position.after (text ++ gap)) rest) := by
  obtain ⟨front, more, rfl, hmore, hfront⟩ := exists_gap_behind text
  rw [List.length_append] at hf
  -- the front is scanned by itself, whatever white space comes behind it
  have hseam : ∀ {gap rest : List Char}, IsGap gap → (gap = [] → rest = []) → Seam front (gap ++ rest) := by
    intro gap rest hg hnil
    refine seam_of_isBlank fun c hc d hd => ?_
    have hblank : Text.isBlank d = true := by
      cases gap with
      | nil => rw [hnil rfl] at hd; cases hd
      | cons b bs =>
        obtain rfl : b = d := by simpa using hd
        exact hg b List.mem_cons_self
    rw [hfront c hc, hblank]
    decide
  have hwhole : scan fuel position (front ++ more ++ gap ++ rest) =
      (scan fuel position front).andThen (scan fuel (position.after (front ++ more ++ gap)) rest) := by
    have hlength : front.length + (more ++ gap ++ rest).length ≤ fuel := by simp; omega
    have hgaps : scan fuel (position.after front) (more ++ gap ++ rest) =
        scan fuel ((position.after front).after (more ++ gap)) rest :=
      scan_gap_append (hmore.append hg) (by simp; omega) _
    have hback : Seam front (more ++ gap ++ rest) := hseam (hmore.append hg) (by simp [hne])
    have := scan_append_of_seam hback hlength position
    rw [hgaps, ← Position.after_append] at this
    simpa using this
  have htext : scan fuel position (front ++ more) =
      (scan fuel position front).andThen ⟨[.finish (position.after (front ++ more))], none⟩ := by
    have hback : Seam front (more ++ []) := hseam hmore fun _ => rfl
    have hlength : front.length + (more ++ []).length ≤ fuel := by simp; omega
    have := scan_append_of_seam hback hlength position
    rw [List.append_nil, scan_of_isGap hmore (by omega), ← Position.after_append] at this
    exact this
  rw [hwhole, htext]
  cases hfailure : (scan fuel position front).failure with
  | some e => rw [Scan.andThen_of_failure hfailure, Scan.andThen_of_failure hfailure, Scan.andThen_of_failure hfailure]
  | none => simp [Scan.andThen, hfailure]

end Lexer

/-- The tokens of a text with white space in it are those of the text in front without their end, and then those of
the text behind, moved to where that stands. Whatever the white space is and whatever stands in front of it, the text
behind has the same tokens but for the positions. -/
theorem tokenize_append_gap {s w t : String} (hs : (tokenize s).failure = none) (hw : IsGap w.toList) (hne : w ≠ "") :
    ∃ words stop, tokenize s = ⟨words ++ [.finish stop], none⟩ ∧
      tokenize (s ++ w ++ t) = ((tokenize t).placed (Position.after {} (s ++ w).toList).moved).prepend words ∧
      ∀ w', IsGap w'.toList → w' ≠ "" → (tokenize (s ++ w' ++ t)).placed (fun _ => {}) =
        ((tokenize t).placed fun _ => {}).prepend (words.map (·.placed fun _ => {})) := by
  obtain ⟨words, stop, hwords⟩ := Lexer.exists_finish_of_scan hs
  have hscan : tokenize s = ⟨words ++ [.finish stop], none⟩ := by
    unfold tokenize at hs ⊢
    rw [← hwords, ← hs]
  have hmoved : ∀ {w : String}, IsGap w.toList → w ≠ "" →
      tokenize (s ++ w ++ t) = ((tokenize t).placed (Position.after {} (s ++ w).toList).moved).prepend words := by
    intro w hw hne
    have hnil : w.toList ≠ [] := fun h => hne (String.toList_eq_nil_iff.mp h)
    have hlength : (s ++ w ++ t).toList.length = s.toList.length + w.toList.length + t.toList.length := by
      simp [Nat.add_assoc]
    have hwhole := Lexer.scan_append_gap hw hnil (Nat.le_of_eq hlength.symm) {}
    rw [← String.toList_append, ← String.toList_append,
      Lexer.scan_eq_of_length_le (show s.toList.length ≤ _ by omega) (Nat.le_refl _),
      Lexer.scan_eq_of_length_le (show t.toList.length ≤ _ by omega) (Nat.le_refl _)] at hwhole
    have hplaced : Lexer.scan t.toList.length ((Position.after {} (s ++ w).toList).moved {}) t.toList =
        (Lexer.scan t.toList.length {} t.toList).placed (Position.after {} (s ++ w).toList).moved :=
      Lexer.scan_moved ⟨by decide, by decide⟩ _
    unfold tokenize at hscan ⊢
    rw [hwhole, hscan, Lexer.Scan.andThen_of_finish]
    exact congrArg (·.prepend words) hplaced
  refine ⟨words, stop, hscan, hmoved hw hne, fun w' hw' hne' => ?_⟩
  rw [hmoved hw' hne', Lexer.Scan.prepend_placed, Lexer.Scan.placed_placed]
  rfl

/-- Two newlines and a blank in front of a number: it is in the second column of the third line. -/
theorem tokenize_third_line : (tokenize "x≤").failure = none ∧ IsGap "\n\n ".toList ∧ "\n\n " ≠ "" ∧
    ∃ words stop, tokenize "x≤" = ⟨words ++ [.finish stop], none⟩ ∧
      ((tokenize ("x≤" ++ "\n\n " ++ "2$")).tokens.drop words.length).map Token.position = [⟨3, 2⟩] := by
  have hs : (tokenize "x≤").failure.isNone = true := by decide +kernel
  have hw : IsGap "\n\n ".toList := List.all_eq_true.mp (by decide +kernel)
  refine ⟨Option.isNone_iff_eq_none.mp hs, hw, by decide, ?_⟩
  obtain ⟨words, stop, hwords, hwhole, -⟩ :=
    tokenize_append_gap (t := "2$") (Option.isNone_iff_eq_none.mp hs) hw (by decide)
  refine ⟨words, stop, hwords, ?_⟩
  rw [hwhole, Lexer.Scan.prepend, List.drop_left' rfl]
  decide +kernel

end Formula
