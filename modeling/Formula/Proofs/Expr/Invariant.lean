import Formula.Proofs.Expr.Makes
import Formula.Proofs.LR.Moves

/-!
# Invariants of the notation parser

The semantics of the notation is lawful for its tables (`Setting.lawful`), so that what is known about runs of
shift-reduce parsers holds of it. A reduction takes the phrase of a rule and makes its payload (`makes_of_reduce`).
Therefore a property of tokens that rules hand on holds of the token that a run returns (`Setting.run_preserves`), and
a property of trees that rules hand on holds of every tree that a text is read as (`Setting.parse_preserves`).
-/

namespace Formula

open LR (Action Config Move Moves)
open Text (Position Span)

namespace Rule

theorem augmented : grammar.Augmented where
  build := grammar_build
  terminal := by decide
  goals_nodup := by decide
  fresh := by decide

/-- The forms stand in the table under the numbers of their rules. -/
theorem eq_index_of_form? {number : Nat} {f : Form} (h : form? number = some f) : number = f.rule.index := by
  have hall : table.map (·.rule.index) = List.range table.length := by decide
  have hnumber : number < table.length := by
    by_contra hlt
    rw [form?, List.getElem?_eq_none (Nat.le_of_not_lt hlt)] at h
    cases h
  have hf := congrArg (Option.map (·.rule.index)) h
  rw [form?, ← List.getElem?_map, hall, List.getElem?_range hnumber] at hf
  exact Option.some.inj hf

theorem form?_of_mem {f : Form} (h : f ∈ table) : form? f.rule.index = some f := by
  obtain ⟨number, hnumber⟩ := List.mem_iff_getElem?.mp h
  rw [← eq_index_of_form? hnumber]
  exact hnumber

/-- A production of the grammar is that of a form. -/
theorem exists_form {number : Nat} {p : LR.Production} (h : grammar.productions[number]? = some p) :
    ∃ f, form? number = some f ∧ p = ⟨f.lhs.index, f.rhs.map Symbol.index, f.prec⟩ := by
  have htable : grammar.productions = table.map fun f => ⟨f.lhs.index, f.rhs.map Symbol.index, f.prec⟩ := rfl
  rw [htable, List.getElem?_map, Option.map_eq_some_iff] at h
  obtain ⟨f, hf, hp⟩ := h
  exact ⟨f, hf, hp.symm⟩

end Rule

namespace Symbol

theorem index_lt (x : Symbol) : x.index < Rule.grammar.symbols := by
  cases x <;> decide

theorem map_index_injective {xs ys : List Symbol} (h : xs.map index = ys.map index) : xs = ys :=
  List.map_injective_iff.mpr (fun _ _ => index_injective) h

end Symbol

/-- The symbol that a text is read as. -/
def Goal.symbol : Goal → Symbol
  | equation => .equation
  | definition => .definition

namespace Setting

variable {s : Setting} {stop : Position}

/-- What becomes of a stack by a reduction. -/
theorem reduce_eq_ok {atEnd : Span} {number : Nat} {stack stack' : List Token} {names names' : List String}
    (h : s.reduce atEnd number stack names = (.ok stack', names')) :
    ∃ f, Rule.form? number = some f ∧ f.rhs.length ≤ stack.length ∧ ∃ payload,
      let p : Phrase := ⟨(stack.take f.rhs.length).reverse, stack[f.rhs.length]?.map (·.symbol)⟩
      s.build p f.rule names = (.ok payload, names') ∧
        stack' = ⟨f.lhs, "", p.span atEnd, payload⟩ :: stack.drop f.rhs.length := by
  unfold reduce at h
  cases hf : Rule.form? number with
  | none =>
    rw [hf] at h
    cases h
  | some f =>
    rw [hf] at h
    dsimp only at h
    by_cases hl : stack.length < f.rhs.length
    · rw [if_pos hl] at h
      cases h
    · rw [if_neg hl, Build.bind_eq_ok] at h
      obtain ⟨payload, _, hb, hpure⟩ := h
      obtain ⟨rfl, rfl⟩ := Build.pure_eq_ok.mp hpure
      exact ⟨f, rfl, Nat.le_of_not_lt hl, payload, hb, rfl⟩

/-- The semantics of the notation keeps to its tables. -/
theorem lawful (s : Setting) (stop : Position) : (s.semantics stop).Lawful Rule.tables where
  choose := by
    intro number next stack rest memo action memo' h
    obtain rfl := Except.ok.inj (congrArg Prod.fst h)
    exact (Bars.choose_eq Rule.tables number _ _ _).imp_right .inl
  reduce := by
    intro number next stack memo stack' memo' p hp _ h
    obtain ⟨f, hf, -, payload, -, rfl⟩ := reduce_eq_ok h
    obtain ⟨g, hg, rfl⟩ := Rule.exists_form hp
    obtain rfl := Option.some.inj (hf.symm.trans hg)
    exact ⟨_, rfl, by rw [List.length_map]⟩

/-- A reduction puts the token in the place of a phrase that the rule builds from it. -/
theorem build_of_reduce {number : Nat} {p : LR.Production} (hp : Rule.grammar.productions[number]? = some p)
    {phrase below : List Token} (hphrase : phrase.map (·.symbol.index) = p.rhs) {next token : Token}
    {memo memo' : List String}
    (h : (s.semantics stop).reduce number next (phrase.reverse ++ below) memo = (.ok (token :: below), memo')) :
    ∃ f ∈ Rule.table, number = f.rule.index ∧ p = ⟨f.lhs.index, f.rhs.map Symbol.index, f.prec⟩ ∧
      phrase.map (·.symbol) = f.rhs ∧ ∃ payload,
        s.build ⟨phrase, below.head?.map (·.symbol)⟩ f.rule memo = (.ok payload, memo') ∧
        token = ⟨f.lhs, "", Phrase.span ⟨phrase, below.head?.map (·.symbol)⟩ ⟨stop, stop⟩, payload⟩ := by
  obtain ⟨f, hf, -, payload, hb, hs⟩ := reduce_eq_ok h
  obtain ⟨g, hg, rfl⟩ := Rule.exists_form hp
  obtain rfl := Option.some.inj (hf.symm.trans hg)
  have hsymbols : phrase.map (·.symbol) = f.rhs := by
    refine Symbol.map_index_injective ?_
    rw [List.map_map]
    exact hphrase
  have hlen : phrase.reverse.length = f.rhs.length := by rw [List.length_reverse, ← hsymbols, List.length_map]
  have htake : (phrase.reverse ++ below).take f.rhs.length = phrase.reverse := List.take_left' hlen
  have hbelow : (phrase.reverse ++ below)[f.rhs.length]? = below.head? := by
    rw [List.getElem?_append_right (Nat.le_of_eq hlen), hlen, Nat.sub_self, List.head?_eq_getElem?]
  rw [htake, hbelow, List.reverse_reverse] at hb hs
  exact ⟨f, List.mem_of_getElem? hf, Rule.eq_index_of_form? hf, rfl, hsymbols, payload, hb, (List.cons.inj hs).1⟩

/-- What a reduction puts in the place of a phrase, the rule makes of it. -/
theorem makes_of_reduce {number : Nat} {p : LR.Production} (hp : Rule.grammar.productions[number]? = some p)
    {phrase below : List Token} (hphrase : phrase.map (·.symbol.index) = p.rhs) {next token : Token}
    {memo memo' : List String}
    (h : (s.semantics stop).reduce number next (phrase.reverse ++ below) memo = (.ok (token :: below), memo')) :
    ∃ f ∈ Rule.table, number = f.rule.index ∧ p = ⟨f.lhs.index, f.rhs.map Symbol.index, f.prec⟩ ∧
      phrase.map (·.symbol) = f.rhs ∧ ∃ payload, s.Makes ⟨phrase, below.head?.map (·.symbol)⟩ f.rule payload ∧
        token = ⟨f.lhs, "", Phrase.span ⟨phrase, below.head?.map (·.symbol)⟩ ⟨stop, stop⟩, payload⟩ := by
  obtain ⟨f, hf, hnumber, hp, hsymbols, payload, hb, htoken⟩ := build_of_reduce hp hphrase h
  exact ⟨f, hf, hnumber, hp, hsymbols, payload, .of_build hb, htoken⟩

/-- A run of the notation parser that succeeds moves from its start to the turn that accepts. -/
theorem exists_moves {goal : Goal} {tokens : List Token} {names : List String} {token : Token}
    (h : (s.run goal tokens names).result = .ok token) :
    ∃ n d, n < 8 * (tokens.length + 2) ∧
      Moves Rule.grammar (s.semantics (stopOf tokens)) n
        (Config.start (s.semantics (stopOf tokens)) goal.index tokens names) d ∧
      d.stack = [token] ∧ d.decision Rule.tables (s.semantics (stopOf tokens)) = .accept ∧
      d.next.symbol = .finish ∧ token.symbol = goal.symbol := by
  obtain ⟨bottom, n, d, hstart, hn, hmoves, hstack, hd, hend, number, p, hnumber, hp, hrhs⟩ :=
    LR.exists_moves_of_run Rule.augmented (s.lawful _) (fun t _ => t.symbol.index_lt) h
  obtain rfl : bottom = goal.index := by
    cases goal <;> exact (Option.some.inj hstart).symm
  refine ⟨n, d, hn, hmoves, hstack, hd, Symbol.index_injective hend, Symbol.index_injective ?_⟩
  cases goal with
  | equation =>
    obtain rfl := Option.some.inj hnumber
    obtain rfl := Option.some.inj hp
    exact (List.cons.inj hrhs).1.symm
  | definition =>
    obtain rfl := Option.some.inj hnumber
    obtain rfl := Option.some.inj hp
    exact (List.cons.inj hrhs).1.symm

/-- A property of tokens that every rule hands on to what it makes. -/
def HandsOn (s : Setting) (P : Token → Prop) : Prop :=
  ∀ {f : Rule.Form} {phrase : List Token} {below : Option Symbol} {payload : Payload} (span : Span),
    f ∈ Rule.table → phrase.map (·.symbol) = f.rhs → (∀ t ∈ phrase, P t) → s.Makes ⟨phrase, below⟩ f.rule payload →
      P ⟨f.lhs, "", span, payload⟩

theorem HandsOn.semantics {P : Token → Prop} (hP : s.HandsOn P) (stop : Position) :
    (s.semantics stop).HandsOn Rule.grammar P := by
  intro number p next token phrase below memo memo' hp hphrase hall hreduce
  obtain ⟨f, hf, -, -, hsymbols, payload, hm, rfl⟩ := makes_of_reduce hp hphrase hreduce
  exact hP _ hf hsymbols hall hm

/-- A property of tokens that every rule hands on holds of the token that a run returns. -/
theorem run_preserves {P : Token → Prop} (hP : s.HandsOn P) {goal : Goal} {tokens : List Token}
    {names : List String} (hend : ∀ position, P (.finish position)) (htokens : ∀ t ∈ tokens, P t) {token : Token}
    (h : (s.run goal tokens names).result = .ok token) : P token :=
  LR.run_preserves Rule.augmented (s.lawful (stopOf tokens)) (hP.semantics _) (fun t _ => t.symbol.index_lt)
    (List.forall_mem_cons.mpr ⟨hend _, htokens⟩) h

end Setting

/-! ## Trees -/

/-- All trees that are carried have the property. -/
def Payload.All (Q : Expr → Prop) : Payload → Prop
  | .nothing => True
  | .expr e => Q e
  | .args es => ∀ e ∈ es, Q e

/-- All trees in a phrase have the property. -/
def Phrase.All (Q : Expr → Prop) (p : Phrase) : Prop := ∀ t ∈ p.tokens, t.payload.All Q

namespace Phrase.All

variable {Q : Expr → Prop} {p : Phrase} {i : Nat}

theorem tree (h : p.All Q) {e : Expr} (he : p.Tree i e) : Q e := by
  obtain ⟨t, ht, hp⟩ := he
  have := h t (List.mem_of_getElem? ht)
  rwa [hp] at this

theorem trees (h : p.All Q) {es : List Expr} (hs : p.Trees i es) : ∀ e ∈ es, Q e := by
  obtain ⟨t, ht, hp⟩ := hs
  have := h t (List.mem_of_getElem? ht)
  rwa [hp] at this

end Phrase.All

/-- What is scanned carries nothing. -/
theorem Lexer.payload_scan {fuel : Nat} {position : Position} {text : List Char} {t : Token}
    (ht : t ∈ (scan fuel position text).tokens) : t.payload = .nothing := by
  induction fuel generalizing position text with
  | zero =>
    cases text <;> · obtain rfl := List.mem_singleton.mp ht; rfl
  | succ fuel ih =>
    cases text with
    | nil =>
      obtain rfl := List.mem_singleton.mp ht
      rfl
    | cons c cs =>
      cases hp : piece? (c :: cs) with
      | none =>
        rw [scan_of_piece?_eq_none hp] at ht
        cases ht
      | some found =>
        obtain ⟨length, piece⟩ := found
        rw [scan_cons hp] at ht
        rcases List.mem_append.mp ht with ht | ht
        · obtain ⟨_, -, rfl⟩ := List.mem_map.mp ht
          rfl
        · exact ih ht

namespace Setting

variable {s : Setting}

/-- What a name is read as is put together from variables and constants by products. -/
theorem resolve_induction {Q : Expr → Prop} (hvariable : ∀ name, Q (.variable name))
    (hconstant : ∀ name value, s.catalog.constant? name = some value → Q (.constant name value))
    (hproduct : ∀ a b, Q a → Q b → Q (.binary .mul a b)) (name : String) (subscript : Option String) :
    Q (s.resolve name subscript) := by
  have hletter : ∀ name subscript, Q (s.letter name subscript) := by
    intro name subscript
    unfold letter
    split
    · exact hvariable _
    · split
      · exact hconstant _ _ ‹_›
      · exact hvariable _
  have hletters : ∀ e ∈ s.letters name subscript, Q e := by
    intro e he
    unfold letters at he
    split at he
    · obtain rfl := List.mem_singleton.mp he
      exact hletter _ _
    · dsimp only at he
      split at he
      · cases he
      · rcases List.mem_append.mp he with he | he
        · obtain ⟨w, -, rfl⟩ := List.mem_map.mp he
          exact hletter _ _
        · obtain rfl := List.mem_singleton.mp he
          exact hletter _ _
  have hfold : ∀ (es : List Expr) (a : Expr), (∀ e ∈ es, Q e) → Q a → Q (es.foldl (.binary .mul) a) := by
    intro es
    induction es with
    | nil => exact fun a _ ha => ha
    | cons e es ih =>
      intro a hes ha
      exact ih _ (fun e he => hes e (List.mem_cons_of_mem _ he)) (hproduct _ _ ha (hes e List.mem_cons_self))
  unfold resolve productOf
  split
  · exact hvariable _
  · rename_i e es he
    rw [he] at hletters
    exact hfold es e (fun e he => hletters e (List.mem_cons_of_mem _ he)) (hletters e List.mem_cons_self)

/-- A parse of tokens that succeeds has run over them, and classified the tree it found. -/
theorem parseTokens_eq_ok {goal : Goal} {tokens : List Token} {names : List String} {e : Expr} :
    (s.parseTokens goal tokens names).result = .ok e ↔
      ∃ token a, (s.run goal tokens names).result = .ok token ∧ token.payload = .expr a ∧ e = a.classify := by
  show (do return (← exprOf (← (s.run goal tokens names).result)).classify) = _ ↔ _
  constructor
  · intro h
    obtain ⟨token, hrun, h⟩ := LR.Grammar.bind_eq_ok h
    obtain ⟨a, ha, h⟩ := LR.Grammar.bind_eq_ok h
    refine ⟨token, a, hrun, ?_, (Except.ok.inj h).symm⟩
    unfold exprOf at ha
    split at ha
    · obtain rfl := Except.ok.inj ha
      assumption
    · cases ha
  · rintro ⟨token, a, hrun, ha, rfl⟩
    rw [hrun]
    show (do return (← exprOf token).classify) = _
    rw [exprOf, ha]
    rfl

/-- A parse that succeeds has scanned the text and run over its tokens, and classified the tree it found. -/
theorem parse_eq_ok {goal : Goal} {text : String} {e : Expr} :
    (s.parse goal text).result = .ok e ↔ (tokenize text).failure = none ∧
      ∃ token a, (s.run goal (tokenize text).tokens []).result = .ok token ∧ token.payload = .expr a ∧
        e = a.classify := by
  unfold parse
  dsimp only
  cases (tokenize text).failure with
  | some error =>
    constructor
    · intro h
      cases h
    · rintro ⟨h, -⟩
      cases h
  | none => exact parseTokens_eq_ok.trans ⟨fun h => ⟨rfl, h⟩, And.right⟩

/-- A property of trees that every rule hands on holds of what the words of a text are reduced to. -/
theorem payload_preserves {Q : Expr → Prop}
    (hmakes : ∀ {p : Phrase} {r : Rule} {payload : Payload}, p.All Q → s.Makes p r payload → payload.All Q)
    {goal : Goal} {text : String} {token : Token} (h : (s.run goal (tokenize text).tokens []).result = .ok token) :
    token.payload.All Q := by
  refine run_preserves (P := fun t => t.payload.All Q) (fun _ _ _ hall hm => hmakes (p := ⟨_, _⟩) hall hm)
    (fun _ => trivial) (fun t ht => ?_) h
  rw [Lexer.payload_scan ht]
  trivial

/-- A property of trees that every rule hands on holds of the tree that a text is read as. -/
theorem parse_preserves {Q : Expr → Prop}
    (hmakes : ∀ {p : Phrase} {r : Rule} {payload : Payload}, p.All Q → s.Makes p r payload → payload.All Q)
    {goal : Goal} {text : String} {e : Expr} (h : (s.parse goal text).result = .ok e) :
    ∃ a, e = a.classify ∧ Q a := by
  obtain ⟨-, token, a, hrun, ha, rfl⟩ := parse_eq_ok.mp h
  have hall := payload_preserves hmakes hrun
  rw [ha] at hall
  exact ⟨a, rfl, hall⟩

end Setting

end Formula
