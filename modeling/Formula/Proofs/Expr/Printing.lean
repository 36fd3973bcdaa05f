import Formula.Proofs.Expr.Clear
import Formula.Proofs.Expr.SetPrefix
import Formula.Proofs.Expr.Texts
import Formula.Value.Text

/-!
# Printing and reading back

The text of a tree puts every operand that is no atom in brackets. So a text is read in one of two ways: as a whole,
where anything may stand (`ReadsWhole`), or as an operand, at any level (`ReadsOperand`); brackets turn the first into
the second, and atoms are read in both ways. For every clear tree one or the other follows from the same for its parts
(`Setting.readsBack_of_clear`), so a tree that was read and is clear is read again from its own text
(`Setting.parse_render_of_isClear`).
-/

namespace Formula

open Lexer (Scanned)
open Text (Position)

namespace Lexer

/-- What begins an operand begins with no sign of a relation. -/
theorem Scanned.head_ne {text : List Char} {ls : List Lexeme} (h : Scanned text ls)
    (hl : ∃ l ∈ ls.head?, l.symbol ∈ Symbol.beginners) : ∀ c ∈ text.head?, c ≠ '>' := by
  have hrules : ∀ r ∈ rules, r.1.heads.any (·.contains '>') = true →
      r.2 ≠ .word ∧ ∃ x ∈ (symbols "" r.2).head?, x ∉ Symbol.beginners := by
    decide
  rintro c hc rfl
  obtain ⟨rest, rfl⟩ := List.head?_eq_some_iff.mp hc
  cases h with
  | @piece _ n a ls _ hp _ =>
    obtain ⟨p, hr, hm⟩ := exists_rule_of_piece? hp
    obtain ⟨hpos, -⟩ := length_of_piece? hp
    obtain ⟨n, rfl⟩ : ∃ k, n = k + 1 := ⟨n - 1, by omega⟩
    obtain ⟨u, hu, hcontains⟩ := hm.within.head '>' rfl
    obtain ⟨hword, x, hx, hbeginner⟩ := hrules _ hr (List.any_eq_true.mpr ⟨u, hu, hcontains⟩)
    -- only the symbols of a word depend on how it is spelled
    have hsymbols : symbols (String.ofList (('>' :: rest).take (n + 1))) a = symbols "" a := by
      cases a with
      | word => exact absurd rfl hword
      | _ => rfl
    obtain ⟨xs, hxs⟩ := List.head?_eq_some_iff.mp hx
    rw [hsymbols, hxs] at hl
    obtain ⟨l, hl, hmem⟩ := hl
    obtain rfl := Option.some.inj hl
    exact hbeginner hmem

end Lexer

/-! ## Words, numerals and signs -/

theorem Lexeme.Orderly.scanned {l : Lexeme} (h : Lexeme.Orderly [l]) : Scanned l.text.toList [l] :=
  Lexer.scanned_of_spelled (spelled_singleton l) h.legal h.apart

theorem IsWord.scanned {word : String} (h : IsWord word) : Scanned word.toList [⟨.identifier, word⟩] :=
  h.orderly.scanned

theorem scanned_mark {x : Symbol} (hx : x ∈ Lexeme.marks) : Scanned (Lexeme.mark x).text.toList [.mark x] :=
  (Lexeme.Orderly.nil.append_mark hx).scanned

/-- The lexemes of a relation. -/
def Lexeme.relation : Relation → List Lexeme
  | .eq => [⟨.equal, "="⟩]
  | .ne => [⟨.notEqual, "!="⟩]
  | .lt => [⟨.less, "<"⟩]
  | .le => [⟨.less, "<"⟩, ⟨.equal, "="⟩]
  | .gt => [⟨.greater, ">"⟩]
  | .ge => [⟨.greater, ">"⟩, ⟨.equal, "="⟩]

theorem scanned_relation (op : Relation) : Scanned op.symbol.toList (Lexeme.relation op) := by
  have hmem : Lexeme.relation op ∈ Lexer.signs := by cases op <;> decide
  have htext : op.symbol.toList = (Lexeme.relation op).flatMap (·.text.toList) := by cases op <;> rfl
  exact htext ▸ Lexer.scanned_sign _ hmem

theorem scanned_equal : Scanned ['='] [⟨.equal, "="⟩] := scanned_relation .eq

namespace Setting

variable {s : Setting}

/-! ## The two ways to read a text -/

/-- The text is read as the tree where anything may stand. -/
def ReadsWhole (s : Setting) (text : List Char) (e : Expr) : Prop :=
  ∃ lhs ∈ operandHeads, ∃ ls, Scanned text ls ∧ ∀ stop, s.Reads stop 0 lhs ls e

/-- The text is read as the tree wherever an operand may stand, unless it would be a function there. -/
def ReadsOperand (s : Setting) (text : List Char) (e : Expr) : Prop :=
  ∃ ls, Scanned text ls ∧ (∃ l ∈ ls.head?, l.symbol ∈ Symbol.beginners) ∧
    ∀ stop level, level ≤ Expr.atomLevel ∨ (∀ name, e.name? = some name → s.catalog.takes name = false) →
      s.Reads stop level .group ls e

variable {text text' : List Char} {a b e : Expr}

theorem ReadsOperand.whole (h : s.ReadsOperand text e) : s.ReadsWhole text e := by
  obtain ⟨ls, hls, -, hread⟩ := h
  exact ⟨.group, by decide, ls, hls, fun stop => hread stop 0 (.inl (Nat.zero_le _))⟩

theorem ReadsWhole.parentheses (h : s.ReadsWhole text e) : s.ReadsOperand ('(' :: (text ++ [')'])) e := by
  obtain ⟨lhs, hlhs, ls, hls, hread⟩ := h
  have hopen : Scanned ('(' :: text) (.mark .leftParen :: ls) :=
    Scanned.done.join (b := ('(', .leftParen)) (by decide) hls
  refine ⟨.mark .leftParen :: (ls ++ [.mark .rightParen]), ?_, ⟨_, rfl, by decide⟩, fun stop level _ => ?_⟩
  · exact hopen.join (b := (')', .rightParen)) (by decide) .done
  · exact (hread stop).parentheses hlhs

/-! ## Atoms -/

theorem number_mem_beginners : Symbol.number ∈ Symbol.beginners := by decide

theorem identifier_mem_beginners : Symbol.identifier ∈ Symbol.beginners := by decide

theorem readsOperand_number {literal : String} {value : Number} (hn : IsNumeral literal)
    (hv : Number.ofLiteral? literal = some value)
    (hc : Expr.checkedNumber s.limits literal value = .ok (.number literal value)) :
    s.ReadsOperand literal.toList (.number literal value) :=
  ⟨[⟨.number, literal⟩], hn.orderly.scanned, ⟨_, rfl, number_mem_beginners⟩, fun _ _ _ => reads_number hv hc⟩

theorem readsOperand_word {name : String} (hw : IsWord name) (hn : (s.resolve name none).name? = some name) :
    s.ReadsOperand name.toList (s.resolve name none) := by
  refine ⟨[⟨.identifier, name⟩], hw.scanned, ⟨_, rfl, identifier_mem_beginners⟩, fun stop level hl => ?_⟩
  refine reads_identifier (hl.imp_right fun h => ?_)
  have htakes := h name hn
  rwa [Catalog.takes, baseOf_eq hw.underscore_not_mem, beq_self_eq_true, Bool.true_and, Option.isSome_eq_false_iff,
    Option.isNone_iff_eq_none] at htakes

theorem readsOperand_subscript {base sub : String} (hb : IsWord base) (hs : IsWord sub ∨ IsNumeral sub)
    (h : s.resolve base (some sub) = .variable (base ++ "_" ++ sub)) :
    s.ReadsOperand (base ++ "_" ++ sub).toList (.variable (base ++ "_" ++ sub)) := by
  have htext : (base ++ "_" ++ sub).toList = base.toList ++ '_' :: sub.toList := by simp
  rw [htext]
  rcases hs with hw | hn
  · exact ⟨_, hb.scanned.join (b := ('_', .subscript)) (by decide) hw.scanned,
      ⟨_, rfl, identifier_mem_beginners⟩, fun _ _ _ => reads_subscript (.inr ⟨rfl, rfl⟩) h⟩
  · exact ⟨_, hb.scanned.join (b := ('_', .subscript)) (by decide) hn.orderly.scanned,
      ⟨_, rfl, identifier_mem_beginners⟩, fun _ _ _ => reads_subscript (.inl ⟨rfl, rfl⟩) h⟩

theorem ReadsWhole.bars (h : s.ReadsWhole text e) : s.ReadsOperand ('|' :: (text ++ ['|'])) (.absolute e) := by
  obtain ⟨lhs, hlhs, ls, hls, hread⟩ := h
  have hopen : Scanned ('|' :: text) (.mark .bar :: ls) := Scanned.done.join (b := ('|', .bar)) (by decide) hls
  refine ⟨.mark .bar :: (ls ++ [.mark .bar]), ?_, ⟨_, rfl, by decide⟩, fun stop level _ => (hread stop).bars hlhs⟩
  exact hopen.join (b := ('|', .bar)) (by decide) .done

/-- The texts of a list are read one by one, with commas between them. -/
theorem exists_rows {es : List Expr} (h : ∀ e ∈ es, s.ReadsWhole e.render.toList e) :
    ∃ rows, Scanned (Expr.renderList es).toList ([Lexeme.mark .comma].intercalate rows) ∧
      ∀ stop, s.ReadsAll stop rows es := by
  induction es with
  | nil => exact ⟨[], .done, fun _ => .nil⟩
  | cons e es ih =>
    obtain ⟨lhs, hlhs, row, hrow, hread⟩ := h e List.mem_cons_self
    cases es with
    | nil =>
      refine ⟨[row], ?_, fun stop => .cons ⟨lhs, hlhs, hread stop⟩ .nil⟩
      rwa [Expr.renderList, List.intercalate_singleton]
    | cons e' es =>
      obtain ⟨rows, hrows, hall⟩ := ih fun a ha => h a (List.mem_cons_of_mem _ ha)
      obtain ⟨row', rows, rfl⟩ : ∃ row' rows', rows = row' :: rows' := by
        cases hall {} with
        | cons => exact ⟨_, _, rfl⟩
      have htext : (Expr.renderList (e :: e' :: es)).toList =
          e.render.toList ++ ',' :: ([] ++ [' '] ++ (Expr.renderList (e' :: es)).toList) := by
        simp [Expr.renderList]
      refine ⟨row :: row' :: rows, ?_, fun stop => .cons ⟨lhs, hlhs, hread stop⟩ (hall stop)⟩
      rw [htext, List.intercalate_cons_cons]
      have hjoin := hrow.join (b := (',', .comma)) (by decide) (Scanned.done.gap isGap_space (by simp) hrows)
      simpa [Lexer.bracketLexeme, Lexeme.mark] using hjoin

theorem readsOperand_call {f : Function} {args : List Expr} (hf : s.Knows f) (hn : f.accepts args.length = true)
    (h : ∀ a ∈ args, s.ReadsWhole a.render.toList a) :
    s.ReadsOperand (f.name.toList ++ '(' :: ((Expr.renderList args).toList ++ [')'])) (.call f args) := by
  obtain ⟨rows, hrows, hall⟩ := exists_rows h
  refine ⟨_, ?_, ⟨_, rfl, identifier_mem_beginners⟩, fun stop level _ => reads_call hf.found hn (hall stop)⟩
  have hclose := hrows.join (b := (')', .rightParen)) (by decide) .done
  exact hf.word.scanned.join (b := ('(', .leftParen)) (by decide) hclose

/-! ## Operators -/

theorem ReadsOperand.plus (h : s.ReadsOperand text e) : s.ReadsWhole ('+' :: text) (.pos e) := by
  obtain ⟨ls, hls, -, hread⟩ := h
  refine ⟨.unary, by decide, .mark .plus :: ls, Scanned.done.join (b := ('+', .plus)) (by decide) hls, fun stop => ?_⟩
  exact ((hread stop _ (.inl (by decide))).sign (.inl rfl) (.inl rfl)).mono (Nat.zero_le _)

theorem ReadsOperand.minus (h : s.ReadsOperand text e) : s.ReadsWhole ('-' :: text) (.neg e) := by
  obtain ⟨ls, hls, hhead, hread⟩ := h
  refine ⟨.unary, by decide, .mark .minus :: ls, hls.minus (hls.head_ne hhead), fun stop => ?_⟩
  exact ((hread stop _ (.inl (by decide))).sign (.inl rfl) (.inr rfl)).mono (Nat.zero_le _)

theorem ReadsOperand.factorial (h : s.ReadsOperand text e)
    (hc : Expr.checkedFactorial e s.limits.factorial = .ok (.factorial e s.limits.factorial)) :
    s.ReadsWhole (text ++ ['!']) (.factorial e s.limits.factorial) := by
  obtain ⟨ls, hls, -, hread⟩ := h
  refine ⟨.group, by decide, ls ++ [.mark .factorial], hls.factorial, fun stop => ?_⟩
  exact ((hread stop _ (.inl (by decide))).factorial hc).mono (Nat.zero_le _)

theorem ReadsOperand.power (ha : s.ReadsOperand text a) (hb : s.ReadsOperand text' b)
    (hc : Expr.checkedPower a b s.limits.exponent = .ok (.power a b s.limits.exponent)) :
    s.ReadsWhole (text ++ '^' :: text') (.power a b s.limits.exponent) := by
  obtain ⟨ls, hls, -, hread⟩ := ha
  obtain ⟨ls', hls', -, hread'⟩ := hb
  refine ⟨.group, by decide, ls ++ .mark .power :: ls', hls.join (b := ('^', .power)) (by decide) hls', fun stop => ?_⟩
  exact ((hread stop _ (.inl (by decide))).power (hread' stop _ (.inl (by decide))) hc).mono (Nat.zero_le _)

theorem ReadsOperand.binary {op : Operator} (ha : s.ReadsOperand text a) (hb : s.ReadsOperand text' b) :
    s.ReadsWhole (text ++ [' '] ++ (op.symbol.toList ++ [' '] ++ text')) (.binary op a b) := by
  obtain ⟨ls, hls, -, hread⟩ := ha
  obtain ⟨ls', hls', -, hread'⟩ := hb
  have hsign : Scanned op.symbol.toList [.mark op.token] := by
    have htext : (Lexeme.mark op.token).text = op.symbol := by cases op <;> rfl
    exact htext ▸ scanned_mark (by cases op <;> decide)
  have hlevel : op.level + 1 ≤ Expr.atomLevel := by cases op <;> decide
  refine ⟨.expression, by decide, ls ++ .mark op.token :: ls', ?_, fun stop => ?_⟩
  · exact hls.gap isGap_space (by simp) (hsign.gap isGap_space (by simp) hls')
  · exact ((hread stop _ (.inl (by omega))).binary (by decide) (hread' stop _ (.inl hlevel)) (by decide)).mono
      (Nat.zero_le _)

/-! ## Compositions and binders -/

theorem ReadsOperand.compose {f : Function} (hf : s.Knows f) (h : s.ReadsOperand text e)
    (hn : ∀ name, e.name? = some name → s.catalog.takes name = false) :
    s.ReadsWhole (f.name.toList ++ '@' :: text) (.compose (.function f) e) := by
  obtain ⟨ls, hls, -, hread⟩ := h
  refine ⟨.group, by decide, ⟨.identifier, f.name⟩ :: ⟨.compose, "@"⟩ :: ls,
    hf.word.scanned.join (b := ('@', .compose)) (by decide) hls, fun stop => ?_⟩
  exact (((hread stop _ (.inr hn)).at .compose).composition hf.found).mono (Nat.zero_le _)

theorem readsWhole_composed {f g : Function} (hf : s.Knows f) (hg : s.Knows g) :
    s.ReadsWhole (f.name.toList ++ '@' :: g.name.toList) (.compose (.function f) (.function g)) := by
  refine ⟨.group, by decide, ⟨.identifier, f.name⟩ :: ⟨.compose, "@"⟩ :: [⟨.identifier, g.name⟩],
    hf.word.scanned.join (b := ('@', .compose)) (by decide) hg.word.scanned, fun stop => ?_⟩
  exact ((reads_function hg.found).composition hf.found).mono (Nat.zero_le _)

theorem ReadsWhole.limit {target : String} (ht : IsWord target) (ha : s.ReadsWhole text a)
    (hb : s.ReadsOperand text' b) :
    s.ReadsWhole (['l', 'i', 'm'] ++ '_' :: ([] ++ '(' :: (target.toList ++ [' '] ++ (['-', '>'] ++ [' '] ++
      (text ++ ')' :: ([] ++ [' '] ++ text')))))) (.limit target a b) := by
  obtain ⟨lhs, hlhs, ls, hls, hread⟩ := ha
  obtain ⟨ls', hls', -, hread'⟩ := hb
  have hlim : Scanned ['l', 'i', 'm'] [⟨.limit, "lim"⟩] := Lexer.scanned_sign [⟨.limit, "lim"⟩] (by decide)
  have harrow : Scanned ['-', '>'] [⟨.arrow, "->"⟩] := Lexer.scanned_sign [⟨.arrow, "->"⟩] (by decide)
  have hbody := hls.join (b := (')', .rightParen)) (by decide) (Scanned.done.gap isGap_space (by simp) hls')
  have happroach := ht.scanned.gap isGap_space (by simp) (harrow.gap isGap_space (by simp) hbody)
  refine ⟨.group, by decide, Lexeme.limitHead target ++ (ls ++ .mark .rightParen :: ls'), ?_, fun stop => ?_⟩
  · exact hlim.join (b := ('_', .subscript)) (by decide)
      (Scanned.done.join (b := ('(', .leftParen)) (by decide) happroach)
  · exact ((hread stop).limit hlhs (hread' stop _ (.inl (by decide)))).mono (Nat.zero_le _)

theorem ReadsWhole.big {op : BigOperator} {var : String} {text'' : List Char} {c : Expr} (hv : IsWord var)
    (ha : s.ReadsWhole text a) (hb : s.ReadsWhole text' b) (hc : s.ReadsOperand text'' c) :
    s.ReadsWhole ((Expr.bigWord op).toList ++ '_' :: ([] ++ '(' :: (var.toList ++ [' '] ++ (['='] ++ [' '] ++
      (text ++ ')' :: ([] ++ '^' :: ([] ++ '\x7b' :: (text' ++ '\x7d' :: ([] ++ [' '] ++ text'')))))))))
      (.big op var a b c) := by
  obtain ⟨lhs, hlhs, ls, hls, hread⟩ := ha
  obtain ⟨lhs', hlhs', ls', hls', hread'⟩ := hb
  obtain ⟨ls'', hls'', hhead, hread''⟩ := hc
  have hword : Scanned (Expr.bigWord op).toList [⟨op.token, Expr.bigWord op⟩] := by
    have hmem : [⟨op.token, Expr.bigWord op⟩] ∈ Lexer.signs := by cases op <;> decide
    simpa using Lexer.scanned_sign _ hmem
  have hupper := hls'.join (b := ('\x7d', .rightBrace)) (by decide) (Scanned.done.gap isGap_space (by simp) hls'')
  have hbound := Scanned.done.join (b := ('^', .power)) (by decide)
    (Scanned.done.join (b := ('\x7b', .leftBrace)) (by decide) hupper)
  have hlower := hls.join (b := (')', .rightParen)) (by decide) hbound
  have hinner := hv.scanned.gap isGap_space (by simp) (scanned_equal.gap isGap_space (by simp) hlower)
  refine ⟨.group, by decide, Lexeme.bigHead op var ++ (ls ++ .mark .rightParen :: .mark .power ::
    ⟨.leftBrace, "\x7b"⟩ :: (ls' ++ ⟨.rightBrace, "\x7d"⟩ :: ls'')), ?_, fun stop => ?_⟩
  · exact hword.join (b := ('_', .subscript)) (by decide)
      (Scanned.done.join (b := ('(', .leftParen)) (by decide) hinner)
  · exact ((hread stop).big hlhs (hread' stop) hlhs' (hread'' stop _ (.inl (by decide))) hhead).mono (Nat.zero_le _)

/-! ## All clear trees -/

/-- The text of a tree is read as the tree, and as an operand if the tree is an atom. -/
structure ReadsBack (s : Setting) (e : Expr) : Prop where
  whole : s.ReadsWhole e.render.toList e
  atom : e.isAtom = true → s.ReadsOperand e.render.toList e

namespace ReadsBack

theorem of_operand (h : s.ReadsOperand e.render.toList e) : s.ReadsBack e := ⟨h.whole, fun _ => h⟩

theorem of_whole (h : s.ReadsWhole e.render.toList e) (ha : e.isAtom = false) : s.ReadsBack e :=
  ⟨h, fun h => by rw [ha] at h; cases h⟩

/-- As an operand a tree stands in brackets, or without them if it is an atom. -/
theorem operand (h : s.ReadsBack e) : s.ReadsOperand (Expr.operand e.isAtom e.render).toList e := by
  unfold Expr.operand
  split
  · exact h.atom ‹_›
  · simpa using h.whole.parentheses

end ReadsBack

/-- A clear tree is read back. -/
theorem readsBack_of_clear (h : e.Clear s) : s.ReadsBack e := by
  induction h with
  | number hn hv hc => exact .of_operand (by rw [Expr.render]; exact readsOperand_number hn hv hc)
  | @word name e hw he hname =>
    subst he
    exact .of_operand (by rw [Expr.render_of_name? hname]; exact readsOperand_word hw hname)
  | subscript hb hs h => exact .of_operand (by rw [Expr.render]; exact readsOperand_subscript hb hs h)
  | pos _ ih => exact .of_whole (by simpa [Expr.render] using ih.operand.plus) rfl
  | neg _ ih => exact .of_whole (by simpa [Expr.render] using ih.operand.minus) rfl
  | factorial _ hc ih => exact .of_whole (by simpa [Expr.render] using ih.operand.factorial hc) rfl
  | absolute _ ih => exact .of_operand (by simpa [Expr.render] using ih.whole.bars)
  | binary _ _ iha ihb => exact .of_whole (by simpa [Expr.render] using iha.operand.binary ihb.operand) rfl
  | power _ _ hc iha ihb => exact .of_whole (by simpa [Expr.render] using iha.operand.power ihb.operand hc) rfl
  | composed hf hg =>
    exact .of_whole (by simpa [Expr.render, Expr.operand, Expr.isAtom] using readsWhole_composed hf hg) rfl
  | compose hf _ hn ih =>
    exact .of_whole (by simpa [Expr.render, Expr.operand, Expr.isAtom] using ih.operand.compose hf hn) rfl
  | call hf hn _ ih =>
    exact .of_operand (by simpa [Expr.render] using readsOperand_call hf hn fun a ha => (ih a ha).whole)
  | limit ht _ _ iha ihb => exact .of_whole (by simpa [Expr.render] using iha.whole.limit ht ihb.operand) rfl
  | big hv _ _ _ iha ihb ihc =>
    exact .of_whole (by simpa [Expr.render] using iha.whole.big hv ihb.whole ihc.operand) rfl

/-! ## Whole texts -/

theorem Parsed.exists_eq {parsed : Parsed} {e : Expr} (h : parsed.result = .ok e) : ∃ met, parsed = ⟨.ok e, met⟩ :=
  ⟨parsed.variableNames, by rw [← h]⟩

/-- A text that is cut into a row is parsed as the words of that row are. -/
theorem parse_of_scanned {goal : Goal} {text : String} {ls : List Lexeme} (h : Scanned text.toList ls)
    (hp : ∀ (words : List Token) (stop : Position), words.map Token.written = ls →
      (∀ t ∈ words, t.payload = .nothing ∧ t.symbol ≠ .finish) →
        (s.parseTokens goal (words ++ [.finish stop]) []).result = .ok e) :
    (s.parse goal text).result = .ok e := by
  obtain ⟨words, stop, htokens, hwritten, hwords⟩ := exists_words h
  unfold parse
  rw [htokens]
  exact hp words stop hwritten hwords

/-- The brackets of an interval stand alone. -/
theorem exists_brackets (square : Bool) :
    (∃ b ∈ Lexer.loners, b.1 = (if square then '[' else '(') ∧ Lexer.bracketLexeme b = Lexeme.opening square) ∧
      ∃ b ∈ Lexer.loners, b.1 = (if square then ']' else ')') ∧ Lexer.bracketLexeme b = Lexeme.closing square := by
  cases square
  · exact ⟨⟨('(', .leftParen), by decide, rfl, rfl⟩, ⟨(')', .rightParen), by decide, rfl, rfl⟩⟩
  · exact ⟨⟨('[', .leftBracket), by decide, rfl, rfl⟩, ⟨(']', .rightBracket), by decide, rfl, rfl⟩⟩

/-- The text of an interval is cut into a row that is parsed as the interval. -/
theorem exists_span (square square' : Bool) (ha : s.ReadsWhole a.render.toList a)
    (hb : s.ReadsWhole b.render.toList b) :
    ∃ ls, Scanned (Expr.span square a b square').render.toList ls ∧ ∀ (words : List Token) (stop : Position),
      words.map Token.written = ls →
        (s.parseTokens .equation (words ++ [.finish stop]) []).result = .ok (Expr.span square a b square') := by
  obtain ⟨lhs, hlhs, ls, hls, hread⟩ := ha
  obtain ⟨lhs', hlhs', ls', hls', hread'⟩ := hb
  obtain ⟨left, hleft, hopen, hopening⟩ := (exists_brackets square).1
  obtain ⟨right, hright, hclose, hclosing⟩ := (exists_brackets square').2
  have htext : (Expr.span square a b square').render.toList = [] ++ left.1 ::
      (a.render.toList ++ ',' :: ([] ++ [' '] ++ (b.render.toList ++ right.1 :: []))) := by
    simp [Expr.span, Expr.render, hopen, hclose]
  have hends := hls.join (b := (',', .comma)) (by decide)
    (Scanned.done.gap isGap_space (by simp) (hls'.join hright .done))
  refine ⟨Lexeme.opening square :: (ls ++ .mark .comma :: (ls' ++ [Lexeme.closing square'])), ?_,
    fun words stop hwords => (hread _).parse_interval hlhs (hread' _) hlhs' hwords []⟩
  rw [htext, ← hopening, ← hclosing]
  exact Scanned.done.join hleft hends

theorem parse_render_relation {op : Relation} (ha : s.ReadsWhole a.render.toList a)
    (hb : s.ReadsWhole b.render.toList b) :
    (s.parse .equation (Expr.relation op a b).render).result = .ok (Expr.relation op a b).classify := by
  obtain ⟨lhs, hlhs, ls, hls, hread⟩ := ha
  obtain ⟨lhs', hlhs', ls', hls', hread'⟩ := hb
  have htokens : (Lexeme.relation op).map (·.symbol) = op.tokens := by cases op <;> rfl
  have htext : (Expr.relation op a b).render.toList =
      a.render.toList ++ [' '] ++ (op.symbol.toList ++ [' '] ++ b.render.toList) := by
    simp [Expr.render]
  have hrow : Scanned (Expr.relation op a b).render.toList (ls ++ (Lexeme.relation op ++ ls')) := by
    rw [htext]
    exact hls.gap isGap_space (by simp) ((scanned_relation op).gap isGap_space (by simp) hls')
  exact parse_of_scanned hrow fun words stop hwords _ =>
    (hread _).parse_relation hlhs (hread' _) hlhs' htokens hwords []

theorem parse_render_setInterval (set : NumberSet) (square square' : Bool) (ha : s.ReadsWhole a.render.toList a)
    (hb : s.ReadsWhole b.render.toList b) :
    (s.parse .equation (Expr.setInterval set (.span square a b square')).render).result =
      .ok (.setInterval set (.span square a b square')) := by
  obtain ⟨ls, hls, hparse⟩ := exists_span square square' ha hb
  have hset : IsWord set.letter ∧ NumberSet.ofName? set.letter = some set := by cases set <;> decide
  have htext : (Expr.setInterval set (.span square a b square')).render.toList =
      set.letter.toList ++ '|' :: (Expr.span square a b square').render.toList := by
    simp [Expr.render]
  have hrow : Scanned (Expr.setInterval set (.span square a b square')).render.toList
      (⟨.identifier, set.letter⟩ :: .mark .bar :: ls) := by
    rw [htext]
    exact hset.1.scanned.join (b := ('|', .bar)) (by decide) hls
  refine parse_of_scanned hrow fun words stop hwords hplain => ?_
  obtain ⟨name, words, rfl, hname, hwords⟩ := List.map_eq_cons_iff.mp hwords
  obtain ⟨bar, words, rfl, hbar, hwords⟩ := List.map_eq_cons_iff.mp hwords
  obtain ⟨hsymbol, hlexeme⟩ := Lexeme.written_eq hname
  obtain ⟨met, hspan⟩ := Parsed.exists_eq (hparse words stop hwords)
  have hprefix : s.parseTokens .equation (name :: bar :: (words ++ [.finish stop])) [] = _ :=
    parseTokens_setPrefix hsymbol (written_mark (by decide) hbar)
      (fun t ht => hplain t (List.mem_cons_of_mem _ (List.mem_cons_of_mem _ ht))) (sameReading_of_written rfl) hspan
  rw [hlexeme, hset.2] at hprefix
  rw [List.cons_append, List.cons_append, hprefix]
  rfl

theorem parse_render_definition {name : String} {params : List Expr} (hn : IsWord name)
    (hp : ∀ p ∈ params, s.ReadsWhole p.render.toList p) (hb : s.ReadsWhole e.render.toList e) :
    (s.parse .definition (Expr.definition name params e).render).result = .ok (.definition name params e) := by
  obtain ⟨lhs, hlhs, ls, hls, hread⟩ := hb
  obtain ⟨rows, hrows, hall⟩ := exists_rows hp
  have htext : (Expr.definition name params e).render.toList = name.toList ++ '(' ::
      ((Expr.renderList params).toList ++ ')' :: ([] ++ [' '] ++ (['='] ++ [' '] ++ e.render.toList))) := by
    simp [Expr.render]
  have hrow : Scanned (Expr.definition name params e).render.toList (⟨.identifier, name⟩ :: .mark .leftParen ::
      ([Lexeme.mark .comma].intercalate rows ++ .mark .rightParen :: ⟨.equal, "="⟩ :: ls)) := by
    have hbody := Scanned.done.gap isGap_space (by simp) (scanned_equal.gap isGap_space (by simp) hls)
    rw [htext]
    exact hn.scanned.join (b := ('(', .leftParen)) (by decide) (hrows.join (b := (')', .rightParen)) (by decide) hbody)
  exact parse_of_scanned hrow fun words stop hwords _ => Reads.parse_definition (hall _) (hread _) hlhs hwords []

theorem classify_of_clear (h : e.Clear s) : e.classify = e := by
  cases h with
  | word _ _ hname =>
    unfold Expr.name? at hname
    split at hname <;> cases hname <;> rfl
  | _ => rfl

/-- The text of a clear tree is parsed as the tree. -/
theorem parse_render_of_clearText {goal : Goal} (h : e.ClearText s goal) :
    (s.parse goal e.render).result = .ok e.classify := by
  cases h with
  | expression h =>
    obtain ⟨lhs, hlhs, ls, hls, hread⟩ := (readsBack_of_clear h).whole
    rw [classify_of_clear h]
    exact parse_of_scanned hls fun words stop hwords _ => (hread _).parseTokens_eq hlhs (classify_of_clear h) hwords []
  | relation ha hb => exact parse_render_relation (readsBack_of_clear ha).whole (readsBack_of_clear hb).whole
  | @interval square square' a b ha hb =>
    obtain ⟨ls, hls, hparse⟩ := exists_span square square' (readsBack_of_clear ha).whole (readsBack_of_clear hb).whole
    exact parse_of_scanned hls fun words stop hwords _ => hparse words stop hwords
  | setInterval ha hb =>
    exact parse_render_setInterval _ _ _ (readsBack_of_clear ha).whole (readsBack_of_clear hb).whole
  | definition hn hp hb =>
    exact parse_render_definition hn (fun p hm => (readsBack_of_clear (hp p hm)).whole) (readsBack_of_clear hb).whole

/-- Printing and reading again. If a text is read as a tree and the tree is clear, then the text of the tree is read as
the same tree, with the same catalog and limits and for the same goal. -/
theorem parse_render_of_isClear {goal : Goal} {text : String} (h : (s.parse goal text).result = .ok e)
    (hc : e.isClear s.catalog = true) : (s.parse goal e.render).result = .ok e := by
  obtain ⟨a, rfl, ha⟩ := clearText_of_parse h hc
  rw [Expr.render_classify]
  exact parse_render_of_clearText ha

/-- A tree with most kinds of nodes in it, a function behind the sign of composition that gets brackets around it, and a
letter that is a keyword. -/
theorem printed_texts :
    let s : Setting := {}
    (s.parse .equation "lim_(h->0)(sin@|h|/h) <= sum_(k=1)^{n}(|a_k-2|^k!) + log(8,-xy)").result.toOption.any
        (fun e => e.render == "lim_(h -> 0) ((sin@|h|) / h) <= (sum_(k = 1)^{n} (|a_k - 2|^(k!))) + log(8, -(x * y))" &&
          e.isClear s.catalog) = true ∧
      (s.parse .equation "sin@cos!").result.toOption.any (fun e =>
        e.evaluate.toOption.any (·.render == "sin(cos!)") && (s.parse .equation e.render).result.toOption.any fun e' =>
          e'.evaluate.toOption.any (·.render != "sin(cos!)")) = true ∧
      (s.parse .equation "xΣ").result.toOption.any (fun e => (s.parse .equation e.render).result.toOption.isNone) =
        true := by
  decide +kernel

theorem parse_render_mixed :
    let s : Setting := {}
    ∃ e, (s.parse .equation "lim_(h->0)(sin@|h|/h) <= sum_(k=1)^{n}(|a_k-2|^k!) + log(8,-xy)").result = .ok e ∧
      e.isClear s.catalog = true ∧
      (s.parse .equation
        "lim_(h -> 0) ((sin@|h|) / h) <= (sum_(k = 1)^{n} (|a_k - 2|^(k!))) + log(8, -(x * y))").result = .ok e := by
  obtain ⟨hmixed, -⟩ := printed_texts
  obtain ⟨e, he, hclear⟩ := exists_tree hmixed
  rw [Bool.and_eq_true, beq_iff_eq] at hclear
  have hread := parse_render_of_isClear he hclear.2
  rw [hclear.1] at hread
  exact ⟨e, he, hclear.2, hread⟩

/-- The text of a tree that is not clear is read as a tree with another value, or refused. -/
theorem parse_render_unclear :
    let s : Setting := {}
    (∃ e e' v w, (s.parse .equation "sin@cos!").result = .ok e ∧ (s.parse .equation e.render).result = .ok e' ∧
        e.evaluate = .ok v ∧ e'.evaluate = .ok w ∧ v ≠ w) ∧
      ∃ e, (s.parse .equation "xΣ").result = .ok e ∧ ∀ e', (s.parse .equation e.render).result ≠ .ok e' := by
  have hvalue : ∀ {e : Expr} {p : Value → Bool}, e.evaluate.toOption.any p = true →
      ∃ v, e.evaluate = .ok v ∧ p v = true := by
    intro e p h
    cases hv : e.evaluate with
    | error => simp [hv, Except.toOption] at h
    | ok v => exact ⟨v, rfl, by simpa [hv, Except.toOption] using h⟩
  obtain ⟨-, hvalues, hrefused⟩ := printed_texts
  obtain ⟨e, he, hboth⟩ := exists_tree hvalues
  rw [Bool.and_eq_true] at hboth
  obtain ⟨v, hv, htext⟩ := hvalue hboth.1
  obtain ⟨e', he', hother⟩ := exists_tree hboth.2
  obtain ⟨w, hw, htext'⟩ := hvalue hother
  obtain ⟨u, hu, hnone⟩ := exists_tree hrefused
  refine ⟨⟨e, e', v, w, he, he', hv, hw, ?_⟩, u, hu, fun u' hu' => ?_⟩
  · rintro rfl
    rw [beq_iff_eq] at htext
    rw [htext] at htext'
    cases htext'
  · rw [hu'] at hnone
    cases hnone

end Setting

end Formula
