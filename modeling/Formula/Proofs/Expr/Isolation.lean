import Formula.Proofs.Expr.Depth
import Formula.Proofs.Expr.Mirror
import Formula.Proofs.Expr.Parenthesis
import Formula.Proofs.Token.Brackets

/-!
# Parentheses isolate what they enclose

A variable between parentheses may be replaced by any expression: the text is then read as the same tree with the tree
of the expression in the place of the variable (`Setting.parse_enclosed`). In front of the parenthesis the two parsers
go in step (`Setting.Mirror`), between the parentheses each does what it does with its expression alone
(`Setting.leads_enclosed`), and behind them they go in step again.

Bars are the exception, since a bar closes one that is open, wherever that stands: either no bar is open in front of the
parenthesis, or the expression opens none where it could also close one.
-/

namespace Formula

open Interior (interiors)
open LR (Action Config Leads Move Moves)
open Text (Position)
open Translation (replacing same)

namespace Expr

/-- The tree without a truth around it. -/
def bare : Expr → Expr
  | .truth e => e
  | e => e

theorem bare_classify {a : Expr} (h : ∀ e, a ≠ .truth e) : a.classify.bare = a := by
  cases a with
  | truth e => exact absurd rfl (h e)
  | relation op a b =>
    rw [classify]
    split <;> rfl
  | _ => rfl

theorem classify_eq_self {a : Expr} (h : a.classify.isOperand = true) : a.classify = a := by
  cases a with
  | relation op a b =>
    rw [classify] at h
    split at h <;> cases h
  | _ => rfl

end Expr

namespace Setting

variable {s : Setting} {stop stop' : Position} {c c' d : Config Token (List String)}

/-! ## Bars on the way -/

/-- The parser before each of its turns on a row of tokens. -/
def turnsOf (s : Setting) (goal : Goal) (tokens : List Token) : List (Config Token (List String)) :=
  LR.historyOf Rule.tables (s.semantics (stopOf tokens)) (8 * (tokens.length + 2)) goal.index tokens []

/-- The parser opens no bar where it could also close one. -/
def OpensNoBar (s : Setting) (goal : Goal) (tokens : List Token) : Prop :=
  ∀ c ∈ s.turnsOf goal tokens, s.opensBar (stopOf tokens) c = false

/-- No bar is open when the parser shifts the token that has a number of tokens behind it. -/
def NoBarOpenAt (s : Setting) (goal : Goal) (tokens : List Token) (behind : Nat) : Prop :=
  ∀ c ∈ s.turnsOf goal tokens, c.rest.length = behind →
    (c.shifted? Rule.tables (s.semantics (stopOf tokens))).isSome = true → Bars.openBars (row c) = 0

theorem mem_turnsOf {goal : Goal} {tokens : List Token} {n : Nat} (hn : n < 8 * (tokens.length + 2))
    (hl : Leads Rule.tables (s.semantics (stopOf tokens)) n
      (Config.start (s.semantics (stopOf tokens)) goal.index tokens []) c) : c ∈ s.turnsOf goal tokens := by
  have hstart : Rule.tables.startState? goal.index = some goal.index := by cases goal <;> rfl
  unfold turnsOf LR.historyOf
  rw [hstart]
  exact hl.mem_history hn

/-! ## An expression in the place of a name -/

/-- What stands between two parentheses makes no difference as long as it is ahead. -/
theorem alike_enclosed {opening opening' : Token} (hopening : opening.symbol = .leftParen)
    (hopening' : opening'.symbol = .leftParen) {words words' rest rest' : List Token}
    (hwords : Bars.depth 0 (words.map (·.symbol)) = some 0) (hwords' : Bars.depth 0 (words'.map (·.symbol)) = some 0)
    (hrest : rest'.map (·.symbol) = rest.map (·.symbol)) :
    Alike (opening :: (words ++ rest)) (opening' :: (words' ++ rest')) where
  next := ⟨_, _, _, _, rfl, rfl, hopening'.trans hopening.symm, by rw [hopening]; decide⟩
  interval front := by
    rw [List.map_cons, List.map_cons, List.map_append, List.map_append, hopening, hopening', hrest]
    exact Bars.isIntervalAhead_enclosed hwords' hwords _ front

/-- A name that is a variable is read as one. -/
theorem run_name (hs : s.limits = {}) {z : String} (hz : IsWord z) (hvariable : s.resolve z none = .variable z)
    {name : Token} (hname : name.written = ⟨.identifier, z⟩) (position : Position) :
    ∃ token, (s.run .equation ([name] ++ [.finish position]) []).result = .ok token ∧
      token.payload = .expr (.variable z) := by
  have hplain : Expr.Plain s (.variable z) := .name (.word hz hvariable)
  have hlexemes : [name].map Token.written = (Expr.variable z).lexemes := by
    rw [Expr.lexemes, Lexeme.ofName_of_isWord hz, List.map_singleton, hname]
  obtain ⟨token, a, hrun, hpayload, ha⟩ := parseTokens_eq_ok.mp (parseTokens_lexemes hs hplain hlexemes position [])
  refine ⟨token, hrun, ?_⟩
  rw [hpayload, ha, Expr.classify_eq_self]
  rw [← ha]
  rfl

/-- Two rows of tokens: a name between parentheses, and what is read as an expression in its place. -/
structure Replacement (s : Setting) (name : String) (e : Expr) where
  front : List Token
  opening : Token
  middle : Token
  closing : Token
  back : List Token
  front' : List Token
  opening' : Token
  middle' : List Token
  closing' : Token
  back' : List Token
  position : Position
  position' : Position
  /-- The tokens of the expression, as they stand in a text of their own, and its end. -/
  words : List Token
  wordsEnd : Position
  unlimited : s.limits = {}
  isWord : IsWord name
  isVariable : s.resolve name none = .variable name
  isOperand : e.isOperand = true
  twin_front : List.Forall₂ (replacing s name e).Twin front front'
  twin_opening : (replacing s name e).Twin opening opening'
  twin_closing : (replacing s name e).Twin closing closing'
  twin_back : List.Forall₂ (replacing s name e).Twin back back'
  twin_words : List.Forall₂ same.Twin words middle'
  opens : opening.symbol = .leftParen
  closes : closing.symbol = .rightParen
  written : middle.written = ⟨.identifier, name⟩
  ends : ∀ t ∈ front ++ words ++ back, t.symbol ≠ .finish
  reads : ∃ token, (s.run .equation (words ++ [.finish wordsEnd]) []).result = .ok token ∧ token.payload = .expr e

namespace Replacement

variable {name : String} {e : Expr} (r : Replacement s name e)

/-- The tokens with the name. -/
def source : List Token := r.front ++ r.opening :: ([r.middle] ++ r.closing :: (r.back ++ [.finish r.position]))

/-- The tokens with the expression in its place. -/
def target : List Token := r.front' ++ r.opening' :: (r.middle' ++ r.closing' :: (r.back' ++ [.finish r.position']))

/-- The tokens of the expression alone. -/
def alone : List Token := r.words ++ [.finish r.wordsEnd]

/-- Bars are opened and closed in the expression alone as behind what is in front of the parenthesis. -/
def BarsIsolated (goal : Goal) : Prop :=
  s.NoBarOpenAt goal r.source (r.back.length + 3) ∨ s.OpensNoBar .equation r.alone

include r

theorem sound : (replacing s name e).Sound s := Translation.sound_replacing r.unlimited r.isWord e

theorem empty : (replacing s name e).Fine "" ∧ (replacing s name e).rename "" = "" := by
  refine ⟨fun h => ?_, rfl⟩
  rcases eq_or_mem_of_mem_variablesOf h with h | ⟨c, hc, -⟩
  · exact r.isWord.ne_empty h
  · cases hc

theorem keeps : s.Keeps (replacing s name e).Twin := r.sound.keeps r.empty

theorem symbol_middle : r.middle.symbol = .identifier := congrArg Lexeme.symbol r.written

theorem opens' : r.opening'.symbol = .leftParen := r.twin_opening.symbol.trans r.opens

theorem closes' : r.closing'.symbol = .rightParen := r.twin_closing.symbol.trans r.closes

theorem ne_finish {ts : List Token} (h : ts ⊆ r.front ++ r.words ++ r.back) : ∀ t ∈ ts, t.symbol ≠ .finish :=
  fun t ht => r.ends t (h ht)

/-- From the opening parentheses on, the two rows are read alike as long as they are ahead. -/
theorem alike : Alike (r.opening :: ([r.middle] ++ r.closing :: (r.back ++ [.finish r.position])))
    (r.opening' :: (r.middle' ++ r.closing' :: (r.back' ++ [.finish r.position']))) := by
  obtain ⟨token, hrun, -⟩ := r.reads
  obtain ⟨-, -, -, -, -, -, -, hequation⟩ := exists_moves hrun
  refine alike_enclosed r.opens r.opens' ?_ ?_ ?_
  · rw [List.map_singleton, r.symbol_middle]
    rfl
  · rw [Translation.symbols_eq r.twin_words]
    exact depth_of_run (r.ne_finish (by simp)) hrun hequation
  · simp only [List.map_cons, List.map_append, Translation.symbols_eq r.twin_back, r.twin_closing.symbol]
    rfl

/-- Between the parentheses the one parser reduces the name to an expression, and the other one what stands in its
place. Behind them they are in step. -/
theorem between {x x' y : Config Token (List String)} {q : Nat} (hq : q ∈ interiors Rule.tables)
    (hahead : x.ahead = r.opening :: ([r.middle] ++ r.closing :: (r.back ++ [.finish r.position])))
    (hlength : x.states.length = x.stack.length + 1) (hshift : x.Shifts Rule.tables (s.semantics stop) q y)
    (hbars : Bars.openBars (row x) = 0 ∨ s.OpensNoBar .equation r.alone)
    (h : Mirror (replacing s name e).Twin
      (r.opening :: ([r.middle] ++ r.closing :: (r.back ++ [.finish r.position])))
      (r.opening' :: (r.middle' ++ r.closing' :: (r.back' ++ [.finish r.position']))) x x') :
    ∃ n n' z z', Leads Rule.tables (s.semantics stop) n y z ∧ Leads Rule.tables (s.semantics stop') n' x' z' ∧
      Mirror (replacing s name e).Twin [.finish r.position] [.finish r.position'] z z' := by
  obtain ⟨hxnext, hxrest⟩ := List.cons.inj hahead
  obtain ⟨y', hy', hystates, hystack, hyahead⟩ := h.shift stop' r.keeps r.alike (by simp) hahead hshift
  have hlength' : x.states.length = x'.stack.length + 1 := by rw [hlength, h.stack.length_eq]
  -- the name
  obtain ⟨token, hrun, hpayload⟩ := run_name r.unlimited r.isWord r.isVariable r.written r.position
  obtain ⟨n, z, p, u, hleads, hstates, hp, hstack, hzahead, hsymbol, hlexeme, hu⟩ :=
    leads_enclosed stop (by simp [r.symbol_middle]) (.cons (Translation.twin_same r.middle) .nil) hrun hpayload rfl
      hq r.opens r.closes hlength (fun i _ c hc => .inr (opensBar_of_no_bar (by simp [r.symbol_middle]) hc))
      hshift.states (hshift.stack.trans (by rw [hxnext])) (hshift.ahead.trans hxrest)
  -- the expression
  have hbars' : ∀ i < 8 * (r.alone.length + 2), ∀ c, Leads Rule.tables (s.semantics (stopOf r.alone)) i
      (Config.start (s.semantics (stopOf r.alone)) Goal.equation.index r.alone []) c →
        s.BarsAlike (stopOf r.alone) x'.stack c := by
    intro i hi c hc
    refine hbars.imp (fun hopen => ?_) fun hnone => hnone c (mem_turnsOf hi hc)
    rwa [Translation.symbols_eq h.stack]
  obtain ⟨token', hrun', hpayload'⟩ := r.reads
  obtain ⟨n', z', p', u', hleads', hstates', hp', hstack', hzahead', hsymbol', hlexeme', hu'⟩ :=
    leads_enclosed stop' (r.ne_finish (by simp)) r.twin_words hrun' hpayload' r.isOperand hq r.opens' r.closes'
      hlength' hbars' (hystates.trans hshift.states) hystack hyahead
  refine ⟨n, 1 + n', z, z', hleads, (Leads.one hy').trans hleads', ?_, ?_, r.closing :: r.back, r.closing' :: r.back',
    .cons r.twin_closing r.twin_back, hzahead, hzahead'⟩
  · rw [hstates, hstates', Option.some.inj (hp.symm.trans hp')]
  · rw [hstack, hstack']
    refine .cons ⟨hsymbol'.trans hsymbol.symm, hlexeme'.trans hlexeme.symm, ?_, hlexeme ▸ r.empty.1⟩
      (.cons r.twin_opening h.stack)
    rw [hu, hu']
    exact congrArg Payload.expr (if_pos rfl).symm

/-- If the tokens with the name are read as something, those with the expression are read as its translation. -/
theorem run_target {goal : Goal} {token : Token} (hrun : (s.run goal r.source []).result = .ok token)
    (hbars : r.BarsIsolated goal) :
    ∃ token', (s.run goal r.target []).result = .ok token' ∧ (replacing s name e).Twin token token' := by
  have hsource : r.source = r.front ++ r.opening :: (r.middle :: r.closing :: r.back ++ [.finish r.position]) := by
    simp [source]
  have htarget : r.target =
      r.front' ++ r.opening' :: (r.middle' ++ r.closing' :: r.back' ++ [.finish r.position']) := by
    simp [target]
  have hwords : ∀ t ∈ r.front ++ r.opening :: r.middle :: r.closing :: r.back, t.symbol ≠ .finish := by
    simp only [List.forall_mem_append, List.forall_mem_cons]
    refine ⟨r.ne_finish (by simp), ?_, ?_, ?_, r.ne_finish (by simp)⟩
    · rw [r.opens]; decide
    · rw [r.symbol_middle]; decide
    · rw [r.closes]; decide
  have halike : Alike (r.opening :: (r.middle :: r.closing :: r.back ++ [.finish r.position]))
      (r.opening' :: (r.middle' ++ r.closing' :: r.back' ++ [.finish r.position'])) := by
    simpa using r.alike
  refine Mirror.exists_run r.keeps hsource hwords htarget r.twin_front halike hrun fun x x' y q harrives h => ?_
  obtain ⟨j, hj, hx, -⟩ := harrives.moves
  obtain ⟨k, d, hk, -, -, hdnext⟩ := harrives.accepts
  have hahead : x.ahead = r.opening :: ([r.middle] ++ r.closing :: (r.back ++ [.finish r.position])) := by
    simpa using harrives.ahead
  obtain ⟨hxnext, hxrest⟩ := List.cons.inj hahead
  have hlength : x.states.length = x.stack.length + 1 :=
    hx.preserve (P := fun c => c.states.length = c.stack.length + 1) (fun _ _ h hm => hm.length_states h) (by
      rw [Config.start_states, Config.start_stack]
      rfl)
  have hq : q ∈ interiors Rule.tables := mem_interiors harrives.shifts (by rw [hxnext, r.opens]) hk hdnext
    (harrives.shifts.ahead.trans hxrest) r.symbol_middle r.closes
  have hopen : Bars.openBars (row x) = 0 ∨ s.OpensNoBar .equation r.alone := by
    refine hbars.imp_left fun hopen => hopen x (mem_turnsOf hj hx.leads) ?_ ?_
    · rw [hxrest]
      simp
    · rw [Config.shifted?, harrives.shifts.decision]
      rfl
  have hbetween : ∃ n n' z z', Leads Rule.tables (s.semantics (stopOf r.source)) n y z ∧
      Leads Rule.tables (s.semantics (stopOf r.target)) n' x' z' ∧
      Mirror (replacing s name e).Twin [.finish r.position] [.finish r.position'] z z' :=
    r.between hq hahead hlength harrives.shifts hopen (by simpa using h)
  obtain ⟨n, n', z, z', hz, hz', hmirror⟩ := hbetween
  exact ⟨1 + n, n', z, z', (Leads.one harrives.step).trans hz, hz', hmirror⟩

end Replacement

/-! ## Texts -/

/-- The tokens of a text that is cut into lexemes. -/
theorem exists_words {text : String} {ls : List Lexeme} (h : Lexer.Scanned text.toList ls) :
    ∃ words stop, tokenize text = ⟨words ++ [.finish stop], none⟩ ∧ words.map Token.written = ls ∧
      ∀ t ∈ words, t.payload = .nothing ∧ t.symbol ≠ .finish := by
  obtain ⟨words, stop, hscan, rfl⟩ := Lexer.scan_of_scanned h (Nat.le_refl _) {}
  refine ⟨words, stop, hscan, rfl, fun t ht => ⟨?_, h.symbol_ne_finish _ (List.mem_map_of_mem ht)⟩⟩
  have hmem : t ∈ (Lexer.scan text.toList.length {} text.toList).tokens := by
    rw [hscan]
    exact List.mem_append_left _ ht
  exact Lexer.payload_scan hmem

/-- Words that are written as a row with two brackets in it. -/
theorem exists_row {words : List Token} {front middle back : List Lexeme} {a b : Lexeme} {P : Token → Prop}
    (h : words.map Token.written = front ++ a :: (middle ++ b :: back)) (hP : ∀ t ∈ words, P t) :
    ∃ f t m u k, words = f ++ t :: (m ++ u :: k) ∧ (f.map Token.written = front ∧ ∀ x ∈ f, P x) ∧
      (t.written = a ∧ P t) ∧ (m.map Token.written = middle ∧ ∀ x ∈ m, P x) ∧ (u.written = b ∧ P u) ∧
      k.map Token.written = back ∧ ∀ x ∈ k, P x := by
  obtain ⟨f, rest, rfl, hf, hrest⟩ := List.map_eq_append_iff.mp h
  obtain ⟨t, rest, rfl, ht, hrest⟩ := List.map_eq_cons_iff.mp hrest
  obtain ⟨m, rest, rfl, hm, hrest⟩ := List.map_eq_append_iff.mp hrest
  obtain ⟨u, k, rfl, hu, hk⟩ := List.map_eq_cons_iff.mp hrest
  obtain ⟨hPf, hP⟩ := List.forall_mem_append.mp hP
  obtain ⟨hPt, hP⟩ := List.forall_mem_cons.mp hP
  obtain ⟨hPm, hP⟩ := List.forall_mem_append.mp hP
  obtain ⟨hPu, hPk⟩ := List.forall_mem_cons.mp hP
  exact ⟨f, t, m, u, k, rfl, ⟨hf, hPf⟩, ⟨ht, hPt⟩, ⟨hm, hPm⟩, ⟨hu, hPu⟩, hk, hPk⟩

/-- A bracket does not stand for a name. -/
theorem not_mem_variablesOf_bracket {name : String} (hword : IsWord name) {b : Char × Symbol} (hb : b ∈ Lexer.brackets)
    {t : Token} (ht : t.written = Lexer.bracketLexeme b) : name ∉ s.variablesOf t.lexeme := by
  have hall : ∀ b ∈ Lexer.brackets, ¬ IsWord (String.ofList [b.1]) := by decide
  intro h
  rw [show t.lexeme = String.ofList [b.1] from congrArg Lexeme.text ht] at h
  rcases eq_or_mem_of_mem_variablesOf h with rfl | ⟨c, hc, rfl⟩
  · exact hall b hb hword
  · rw [String.toList_ofList, List.mem_singleton] at hc
    exact hall b hb (hc ▸ hword)

/-- The words of two texts, one with a name between parentheses and one with an expression in its place. -/
theorem exists_replacement (hs : s.limits = {}) {name : String} (hword : IsWord name)
    (hvariable : s.resolve name none = .variable name) {before after inner : String}
    (hfresh : ∀ t ∈ (tokenize before).tokens ++ (tokenize after).tokens, name ∉ s.variablesOf t.lexeme) {a : Expr}
    (hoperand : a.isOperand = true) {token : Token}
    (hrun : (s.run .equation (tokenize inner).tokens []).result = .ok token) (ha : token.payload = .expr a)
    (hinner : (tokenize inner).failure = none)
    (hfailure : (tokenize (before ++ "(" ++ name ++ ")" ++ after)).failure = none) :
    ∃ r : Replacement s name a, r.source = (tokenize (before ++ "(" ++ name ++ ")" ++ after)).tokens ∧
      r.target = (tokenize (before ++ "(" ++ inner ++ ")" ++ after)).tokens ∧ r.alone = (tokenize inner).tokens ∧
      r.back.length + 1 = (tokenize after).tokens.length ∧
      (tokenize (before ++ "(" ++ inner ++ ")" ++ after)).failure = none := by
  have htext : ∀ middle : String, (before ++ "(" ++ middle ++ ")" ++ after).toList =
      before.toList ++ '(' :: (middle.toList ++ ')' :: after.toList) := by
    intro middle
    simp [String.toList_append]
  have hlp : ('(', Symbol.leftParen) ∈ Lexer.brackets := by decide
  have hrp : (')', Symbol.rightParen) ∈ Lexer.brackets := by decide
  -- the lexemes of the texts
  obtain ⟨ls, hsource⟩ := Lexer.exists_scanned (Nat.le_refl _) hfailure
  obtain ⟨ws, hws⟩ := Lexer.exists_scanned (Nat.le_refl _) hinner
  rw [htext] at hsource
  obtain ⟨front, rest, rfl, hfront, hrest⟩ := (Lexer.scanned_append_bracket_iff hlp).mp hsource
  obtain ⟨middle, back, rfl, hmiddle, hback⟩ := (Lexer.scanned_append_bracket_iff hrp).mp hrest
  obtain rfl : middle = [⟨.identifier, name⟩] := by
    refine hmiddle.unique (Lexer.scanned_of_spelled ?_ hword.orderly.legal hword.orderly.apart)
    simpa using spelled_flatMap [⟨.identifier, name⟩]
  have htarget : Lexer.Scanned (before ++ "(" ++ inner ++ ")" ++ after).toList
      (front ++ Lexer.bracketLexeme ('(', .leftParen) :: (ws ++ Lexer.bracketLexeme (')', .rightParen) :: back)) := by
    rw [htext]
    exact (Lexer.scanned_append_bracket_iff hlp).mpr ⟨_, _, rfl, hfront,
      (Lexer.scanned_append_bracket_iff hrp).mpr ⟨_, _, rfl, hws, hback⟩⟩
  rw [← htext] at hsource
  -- their tokens
  obtain ⟨words, stop, htokens, hwritten, hwords⟩ := exists_words hsource
  obtain ⟨words', stop', htokens', hwritten', hwords'⟩ := exists_words htarget
  obtain ⟨words₀, stop₀, htokens₀, rfl, hwords₀⟩ := exists_words hws
  obtain ⟨f, t, m, u, k, rfl, ⟨hf, hfwords⟩, ⟨ht, htword⟩, ⟨hm, -⟩, ⟨hu, huword⟩, hk, hkwords⟩ :=
    exists_row hwritten hwords
  obtain ⟨f', t', m', u', k', rfl, ⟨hf', hfwords'⟩, ⟨ht', htword'⟩, ⟨hm', hmwords'⟩, ⟨hu', huword'⟩, hk', hkwords'⟩ :=
    exists_row hwritten' hwords'
  obtain ⟨w, rfl, hw⟩ := List.map_eq_singleton_iff.mp hm
  obtain ⟨wordsB, stopB, htokensB, rfl, -⟩ := exists_words hfront
  obtain ⟨wordsA, stopA, htokensA, rfl, -⟩ := exists_words hback
  rw [htokens₀] at hrun
  rw [htokensB, htokensA] at hfresh
  have hfine : ∀ {ts us : List Token}, ts.map Token.written = us.map Token.written →
      (∀ y ∈ us, name ∉ s.variablesOf y.lexeme) → ∀ x ∈ ts, name ∉ s.variablesOf x.lexeme := by
    intro ts us hsame hus x hx
    obtain ⟨y, hy, hxy⟩ := List.mem_map.mp (hsame ▸ List.mem_map_of_mem hx)
    rw [← (Lexeme.mk.inj hxy).2]
    exact hus y hy
  have hlength : k.length = wordsA.length := by simpa using congrArg List.length hk
  have hrename : ∀ w, (replacing s name a).rename w = w := fun _ => rfl
  refine ⟨{ front := f, opening := t, middle := w, closing := u, back := k
            front' := f', opening' := t', middle' := m', closing' := u', back' := k'
            position := stop, position' := stop', words := words₀, wordsEnd := stop₀
            unlimited := hs, isWord := hword, isVariable := hvariable, isOperand := hoperand
            opens := congrArg Lexeme.symbol ht, closes := congrArg Lexeme.symbol hu, written := hw
            reads := ⟨token, hrun, ha⟩
            twin_front := ?_, twin_opening := ?_, twin_closing := ?_, twin_back := ?_, twin_words := ?_, ends := ?_ },
    ?_, ?_, ?_, ?_, congrArg Lexer.Scan.failure htokens'⟩
  · have hfront := hfine hf fun y hy => hfresh y (by simp [hy])
    exact Translation.twins_of_written hrename (hf'.trans hf.symm) (fun x hx => ⟨(hfwords x hx).1, hfront x hx⟩)
      fun x hx => (hfwords' x hx).1
  · exact Translation.twin_of_written hrename (ht'.trans ht.symm) ⟨htword.1, not_mem_variablesOf_bracket hword hlp ht⟩
      htword'.1
  · exact Translation.twin_of_written hrename (hu'.trans hu.symm) ⟨huword.1, not_mem_variablesOf_bracket hword hrp hu⟩
      huword'.1
  · have hback := hfine hk fun y hy => hfresh y (by simp [hy])
    exact Translation.twins_of_written hrename (hk'.trans hk.symm) (fun x hx => ⟨(hkwords x hx).1, hback x hx⟩)
      fun x hx => (hkwords' x hx).1
  · exact Translation.twins_of_written (fun _ => rfl) hm' (fun x hx => ⟨(hwords₀ x hx).1, trivial⟩)
      fun x hx => (hmwords' x hx).1
  · simp only [List.forall_mem_append]
    exact ⟨⟨fun x hx => (hfwords x hx).2, fun x hx => (hwords₀ x hx).2⟩, fun x hx => (hkwords x hx).2⟩
  · rw [htokens]
    simp [Replacement.source]
  · rw [htokens']
    simp [Replacement.target]
  · rw [htokens₀]
    rfl
  · rw [htokensA, List.length_append, ← hlength]
    rfl

/-- No rule makes a truth. -/
theorem Makes.ne_truth {p : Phrase} {r : Rule} {payload : Payload} (hp : p.All fun e => ∀ a, e ≠ .truth a)
    (h : s.Makes p r payload) : payload.All fun e => ∀ a, e ≠ .truth a := by
  have hcalls : ∀ {name subscript args e}, s.Calls name subscript args e → ∀ a, e ≠ .truth a := by
    intro name subscript args e h
    cases h <;> exact nofun
  have hresolve : ∀ name subscript a, s.resolve name subscript ≠ .truth a := fun name subscript =>
    resolve_induction (Q := fun e => ∀ a, e ≠ .truth a) (fun _ => nofun) (fun _ _ _ => nofun) (fun _ _ _ _ => nofun)
      name subscript
  cases h with
  | hand _ he => exact hp.tree he
  | firstArgument he => exact List.forall_mem_singleton.mpr (hp.tree he)
  | nextArgument hs he =>
    exact List.forall_mem_append.mpr ⟨hp.trees hs, List.forall_mem_singleton.mpr (hp.tree he)⟩
  | number _ _ he =>
    obtain ⟨_, _, _, rfl⟩ := he
    exact nofun
  | identifier | subscript => exact hresolve _ _
  | call _ _ he | callWithoutArguments _ he | subscriptCall _ _ _ _ he => exact hcalls he
  | _ => exact nofun

/-- An expression between parentheses may stand in the place of a variable between parentheses, whatever stands around
them: the text is read as the same tree with the tree of the expression in the place of the variable. If bars are open
in front of the parenthesis, the expression must not open one where it could also close one. -/
theorem parse_enclosed (hs : s.limits = {}) {name : String} (hword : IsWord name)
    (hvariable : s.resolve name none = .variable name) {before after inner : String}
    (hfresh : ∀ t ∈ (tokenize before).tokens ++ (tokenize after).tokens, name ∉ s.variablesOf t.lexeme) {a e : Expr}
    (ha : (s.parse .equation inner).result = .ok a) (hoperand : a.isOperand = true) {goal : Goal}
    (he : (s.parse goal (before ++ "(" ++ name ++ ")" ++ after)).result = .ok e)
    (hbars : s.NoBarOpenAt goal (tokenize (before ++ "(" ++ name ++ ")" ++ after)).tokens
        ((tokenize after).tokens.length + 2) ∨ s.OpensNoBar .equation (tokenize inner).tokens) :
    (s.parse goal (before ++ "(" ++ inner ++ ")" ++ after)).result =
      .ok (e.bare.translate (replacing s name a)).classify := by
  obtain ⟨hfailure, token, raw, hrun, hraw, rfl⟩ := parse_eq_ok.mp he
  obtain ⟨hinner, token', raw', hrun', hraw', rfl⟩ := parse_eq_ok.mp ha
  have hclassify := Expr.classify_eq_self hoperand
  rw [hclassify] at hoperand ⊢
  obtain ⟨r, hsource, htarget, halone, hlength, hfailure'⟩ :=
    exists_replacement hs hword hvariable hfresh hoperand hrun' hraw' hinner hfailure
  rw [← hsource, ← halone, ← hlength] at hbars
  rw [← hsource] at hrun
  obtain ⟨made, hmade, htwin⟩ := r.run_target hrun hbars
  have htruth : token.payload.All fun e => ∀ b, e ≠ .truth b := payload_preserves Makes.ne_truth (hsource ▸ hrun)
  rw [hraw] at htruth
  rw [Expr.bare_classify htruth]
  refine parse_eq_ok.mpr ⟨hfailure', made, _, htarget ▸ hmade, ?_, rfl⟩
  rw [htwin.payload, hraw]
  rfl

/-- A text that is read as a tree of a kind. -/
theorem exists_tree {goal : Goal} {text : String} {p : Expr → Bool}
    (h : (s.parse goal text).result.toOption.any p = true) : ∃ e, (s.parse goal text).result = .ok e ∧ p e = true := by
  cases he : (s.parse goal text).result with
  | error => simp [he, Except.toOption] at h
  | ok e => exact ⟨e, rfl, by simpa [he, Except.toOption] using h⟩

/-- Bars between parentheses, behind a bar that is open. -/
theorem bars_in_bars :
    let s : Setting := {}
    ((s.parse .equation "|b|").result.toOption.any (·.isOperand) = true ∧
      (s.parse .equation "|a-(z)|").result.toOption.any (fun _ => true) = true ∧
      (s.turnsOf .equation (tokenize "|b|").tokens).all (!s.opensBar (stopOf (tokenize "|b|").tokens) ·) = true) ∧
    (s.parse .equation "x|y|").result.toOption.any (·.isOperand) = true ∧
      (s.parse .equation "|(z)|").result.toOption.any (fun _ => true) = true ∧
      (s.parse .equation "|(x|y|)|").result.toOption.isNone = true := by
  decide +kernel

/-- A whole absolute value may stand between parentheses behind a bar that is open. -/
theorem parse_bars_in_bars :
    let s : Setting := {}
    ∃ a e, (s.parse .equation "|b|").result = .ok a ∧ (s.parse .equation "|a-(z)|").result = .ok e ∧
      (s.parse .equation "|a-(|b|)|").result = .ok (e.bare.translate (replacing s "z" a)).classify := by
  obtain ⟨⟨ha, he, hbars⟩, -⟩ := bars_in_bars
  obtain ⟨a, ha, hoperand⟩ := exists_tree ha
  obtain ⟨e, he, -⟩ := exists_tree he
  refine ⟨a, e, ha, he, ?_⟩
  have hnone : OpensNoBar {} .equation (tokenize "|b|").tokens := fun c hc => by
    simpa using List.all_eq_true.mp hbars c hc
  have hsource : "|a-" ++ "(" ++ "z" ++ ")" ++ "|" = "|a-(z)|" := by decide
  have htarget : "|a-" ++ "(" ++ "|b|" ++ ")" ++ "|" = "|a-(|b|)|" := by decide
  rw [← hsource] at he
  rw [← htarget]
  exact parse_enclosed rfl (by decide) rfl (by decide) ha hoperand he (.inr hnone)

/-- A bar between parentheses closes one in front of them. -/
theorem bar_closes_over_parenthesis :
    let s : Setting := {}
    (∃ a, (s.parse .equation "x|y|").result = .ok a ∧ a.isOperand = true) ∧
      (∃ e, (s.parse .equation "|(z)|").result = .ok e) ∧ ∀ e, (s.parse .equation "|(x|y|)|").result ≠ .ok e := by
  obtain ⟨-, ha, he, hnone⟩ := bars_in_bars
  refine ⟨exists_tree ha, (exists_tree he).imp fun _ => And.left, fun e he => ?_⟩
  rw [he] at hnone
  cases hnone

end Setting

end Formula
