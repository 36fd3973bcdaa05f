import Formula.Command
import Formula.Proofs.Expr.Registering

/-!
# Symbols on the command line

The symbols of a command are added to the setting of its problem once the definitions have been read. The equation and
the domain read a symbol as one name (`identifier_withSymbols`). A definition with no symbol among its identifiers is
read the same with the symbols and without them (`define_withSymbols`); with such definitions only, the answer is the
one where all symbols are known before anything is read (`printParse_unsplit`). A definition that uses a symbol splits
it into its letters (`printParse_splits_in_definition`).
-/

namespace Formula

theorem Catalog.contains_upsert (name other : String) (names : List String) :
    (upsert id name names).contains other = (name == other || names.contains other) := by
  by_cases h : name = other
  · subst h
    rw [beq_self_eq_true, Bool.true_or, List.contains_iff_mem]
    induction names with
    | nil => exact List.mem_singleton_self name
    | cons n names ih =>
      rw [upsert]
      split
      · exact List.mem_cons_self
      · exact List.mem_cons_of_mem _ ih
  · rw [contains_upsert_of_ne h, beq_eq_false_iff_ne.mpr h, Bool.false_or]

namespace Setting

variable {s : Setting} {names : List String}

/-- Adds names of several letters that are not read as products. -/
def withSymbols (s : Setting) (names : List String) : Setting := names.foldl withSymbol s

/-- All that symbols change is which names are symbols. -/
theorem withSymbols_eq (s : Setting) (names : List String) :
    ∃ symbols, s.withSymbols names = { s with catalog := { s.catalog with symbols } } ∧
      ∀ name, symbols.contains name = (names.contains name || s.catalog.isSymbol name) := by
  induction names generalizing s with
  | nil => exact ⟨s.catalog.symbols, rfl, fun _ => rfl⟩
  | cons n names ih =>
    obtain ⟨symbols, heq, hsymbols⟩ := ih (s.withSymbol n)
    refine ⟨symbols, heq, fun name => ?_⟩
    have hinsert : (s.withSymbol n).catalog.isSymbol name = (n == name || s.catalog.isSymbol name) :=
      Catalog.contains_upsert n name s.catalog.symbols
    rw [hsymbols, hinsert, List.contains_cons, BEq.comm, ← Bool.or_assoc, Bool.or_comm (names.contains name)]

/-- A name that is a symbol stands for one thing: for the constant of that name, or else for the variable. -/
theorem identifier_withSymbols (s : Setting) {name : String} (h : name ∈ names) (found : List String) :
    (s.withSymbols names).identifier name none found =
      match s.catalog.constant? name with
      | some value => (.ok (.constant name value), found)
      | none => (.ok (.variable name), found ++ [name]) := by
  obtain ⟨symbols, heq, hsymbols⟩ := withSymbols_eq s names
  have hsymbol : (s.withSymbols names).catalog.isSymbol name = true := by
    rw [heq]
    exact (hsymbols name).trans (by rw [List.contains_iff_mem.mpr h, Bool.true_or])
  have hconstant : (s.withSymbols names).catalog.constant? name = s.catalog.constant? name := by
    rw [heq]
    rfl
  have hwhole : (s.withSymbols names).isWhole name = true := by
    rw [isWhole, hsymbol, Bool.or_true, Bool.true_or]
  unfold identifier letters
  rw [if_pos hwhole, letter, hconstant]
  cases s.catalog.constant? name with
  | some value =>
    show (Except.ok (Expr.constant name value), found ++ []) = _
    rw [List.append_nil]
  | none => rfl

theorem agree_withSymbols {name : String} (h : name ∉ names) : s.catalog.Agree (s.withSymbols names).catalog name := by
  obtain ⟨symbols, heq, hsymbols⟩ := withSymbols_eq s names
  rw [heq]
  refine ⟨rfl, rfl, ?_, fun _ _ => rfl⟩
  have hcontains : names.contains name = false := by simpa using h
  exact ((hsymbols name).trans (by rw [hcontains, Bool.false_or])).symm

/-- An identifier of the text is among the names. -/
def Mentions (text : String) (names : List String) : Prop :=
  ∃ t ∈ (tokenize text).tokens, t.symbol = .identifier ∧ t.lexeme ∈ names

instance (text : String) (names : List String) : Decidable (Mentions text names) :=
  inferInstanceAs (Decidable (∃ t ∈ (tokenize text).tokens, t.symbol = .identifier ∧ t.lexeme ∈ names))

/-- A text that mentions none of the names is parsed the same with them as symbols and without them. -/
theorem parse_withSymbols {text : String} (h : ¬ Mentions text names) (goal : Goal) :
    s.parse goal text = (s.withSymbols names).parse goal text := by
  obtain ⟨symbols, heq, -⟩ := withSymbols_eq s names
  have hlimits : s.limits = (s.withSymbols names).limits := by rw [heq]
  have hagree : ∀ t ∈ (tokenize text).tokens, t.symbol = .identifier →
      s.catalog.Agree (s.withSymbols names).catalog t.lexeme :=
    fun t ht hi => agree_withSymbols fun hm => h ⟨t, ht, hi, hm⟩
  have hend : ∀ position : Text.Position, (Token.finish position).symbol = .identifier →
      s.catalog.Agree (s.withSymbols names).catalog (Token.finish position).lexeme := fun _ h => by cases h
  obtain ⟨hconcur, -⟩ := (likeness_of_agree hlimits).parseTokens_concur ⟨rfl, hend _⟩
    (List.forall₂_same.mpr fun t ht => ⟨rfl, hagree t ht⟩) goal []
  unfold parse
  dsimp only
  split
  · rfl
  · exact congrArg (fun x => Parsed.mk x.1 x.2) hconcur.eq

/-- Symbols and functions can be added in any order. -/
theorem withSymbols_insertFunction (s : Setting) (names : List String) (f : Function) :
    { s with catalog := s.catalog.insertFunction f }.withSymbols names =
      { s.withSymbols names with catalog := (s.withSymbols names).catalog.insertFunction f } := by
  induction names generalizing s with
  | nil => rfl
  | cons n names ih => exact ih (s.withSymbol n)

/-- A definition that mentions none of the symbols defines the same function in the same place. -/
theorem define_withSymbols {text : String} (h : ¬ Mentions text names) :
    (s.withSymbols names).define text = (fun r => (r.1, r.2.withSymbols names)) <$> s.define text := by
  unfold define
  rw [← parse_withSymbols h]
  cases (s.parse .definition text).result with
  | error e => rfl
  | ok root =>
    dsimp only [Except.mapError, bind, Except.bind]
    cases root.evaluate with
    | error e => rfl
    | ok v =>
      cases v with
      | function f => exact congrArg (fun s' => Except.ok (f, s')) (withSymbols_insertFunction s names f).symm
      | _ => rfl

/-- Definitions that mention no symbol can be read before the symbols are added or after. -/
theorem foldlM_define_withSymbols {definitions : List String} (h : ∀ text ∈ definitions, ¬ Mentions text names) :
    definitions.foldlM (fun s text => do return (← s.define text).2) (s.withSymbols names) =
      (Setting.withSymbols · names) <$> definitions.foldlM (fun s text => do return (← s.define text).2) s := by
  induction definitions generalizing s with
  | nil => rfl
  | cons text definitions ih =>
    obtain ⟨htext, hrest⟩ := List.forall_mem_cons.mp h
    rw [List.foldlM_cons, List.foldlM_cons, define_withSymbols htext]
    cases s.define text with
    | error e => rfl
    | ok r => exact ih hrest

end Setting

/-- The setting of a problem in which symbols are known before anything is read. -/
def Problem.settingWith (p : Problem) (symbols : List String) : Except Error Setting :=
  let start := p.constants.foldl (fun s (name, value) => s.withConstant name value)
    (Setting.withLimits {} p.limits)
  p.functions.foldlM (fun s text => do return (← s.define text).2) (start.withSymbols symbols)

/-- With definitions that mention no symbol it is the setting of the problem, and the symbols are added to it. -/
theorem Problem.settingWith_eq {p : Problem} {symbols : List String}
    (h : ∀ text ∈ p.functions, ¬ Setting.Mentions text symbols) :
    p.settingWith symbols = (Setting.withSymbols · symbols) <$> p.setting := by
  rw [settingWith, setting]
  exact Setting.foldlM_define_withSymbols h

theorem Printout.whenOk_map {α β : Type} (f : α → β) (e : Except Error α) (next : β → Printout) :
    whenOk (f <$> e) next = whenOk e fun a => next (f a) := by
  cases e with
  | error => rfl
  | ok => rfl

namespace Command

open Printout (andThen whenOk)

/-- What is printed for an equation and its domain in a setting. -/
def answer (equation : String) (domain : Option String) (s : Setting) : Printout :=
  whenOk (s.read equation) fun reading =>
    andThen ["ast:       " ++ reading.root.render] <|
      whenOk reading.evaluate fun value =>
        andThen ["value:     " ++ value.render, "variables: " ++ ", ".intercalate reading.freeSymbols] <|
          andThen (reading.root.latex?.toList.map ("latex:     " ++ ·)) (printDomain s domain)

theorem printParse_eq (equation : String) (o : ParseOptions) :
    printParse equation o =
      whenOk (problemOf equation o).setting fun s => answer equation o.domain (s.withSymbols o.symbols) := rfl

/-- Symbols of a command are not split in its equation and its domain: whatever was defined before, each stands for the
constant of that name or else for the variable. If none of them is mentioned by a definition, the whole answer is the
one with all symbols known before any text is read. -/
theorem printParse_unsplit (equation : String) (o : ParseOptions)
    (h : ∀ text ∈ o.functions, ¬ Setting.Mentions text o.symbols) :
    (printParse equation o = whenOk (problemOf equation o).setting fun s =>
        answer equation o.domain (s.withSymbols o.symbols)) ∧
      (∀ (s : Setting), ∀ name ∈ o.symbols, ∀ found, (s.withSymbols o.symbols).identifier name none found =
        match s.catalog.constant? name with
        | some value => (.ok (.constant name value), found)
        | none => (.ok (.variable name), found ++ [name])) ∧
      printParse equation o =
        whenOk ((problemOf equation o).settingWith o.symbols) (answer equation o.domain) := by
  refine ⟨printParse_eq equation o, fun s name hname found => Setting.identifier_withSymbols s hname found, ?_⟩
  have hfunctions : ∀ text ∈ (problemOf equation o).functions, ¬ Setting.Mentions text o.symbols := h
  rw [Problem.settingWith_eq hfunctions, Printout.whenOk_map, printParse_eq]

/-- A symbol as the argument of a function whose definition does not mention it. -/
theorem printParse_unsplit_rate :
    let o : ParseOptions := { functions := ["f(x) = x*t"], symbols := ["rate"] }
    (∀ text ∈ o.functions, ¬ Setting.Mentions text o.symbols) ∧
      printParse "f(rate)" o = whenOk ((problemOf "f(rate)" o).settingWith o.symbols) (answer "f(rate)" o.domain) ∧
      (printParse "f(rate)" o).lines = ["ast:       f(rate)", "value:     rate*t", "variables: rate"] := by
  intro o
  have hnone : ∀ text ∈ o.functions, ¬ Setting.Mentions text o.symbols := by decide +kernel
  exact ⟨hnone, (printParse_unsplit "f(rate)" o hnone).2.2, by decide +kernel⟩

/-- A definition that mentions a symbol is read before the symbol is known, and splits it. -/
theorem printParse_splits_in_definition :
    let o : ParseOptions := { functions := ["f(x) = ab*x"], symbols := ["ab"] }
    (printParse "f(y)" o).lines = ["ast:       f(y)", "value:     a*b*y", "variables: y"] ∧
      (whenOk ((problemOf "f(y)" o).settingWith o.symbols) (answer "f(y)" o.domain)).lines =
        ["ast:       f(y)", "value:     ab*y", "variables: y"] := by
  decide +kernel

end Command

end Formula
