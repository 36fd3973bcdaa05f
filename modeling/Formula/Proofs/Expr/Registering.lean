import Formula.Proofs.Expr.Likeness

/-!
# Registering a name

An entry of a catalog matters to the texts that use it. Functions and symbols are looked up by whole identifiers,
constants by whole identifiers and by single letters (`Catalog.Entry.UsedBy`). Two catalogs that differ in one entry
(`Catalog.AgreeBut`), such as before and after an insertion (`Catalog.agreeBut_insertFunction` and the like), agree on
every other identifier, and so a text without a use of the entry is parsed the same with both (`Setting.parse_unused`).
-/

namespace Formula

namespace Catalog

/-- An entry of a catalog, by its kind and name. -/
inductive Entry where
  | function (name : String)
  | constant (name : String)
  | symbol (name : String)
deriving DecidableEq

/-- Reading the identifier may look the entry up. -/
def Entry.UsedBy (identifier : String) : Entry → Prop
  | function name | symbol name => identifier = name
  | constant name => identifier = name ∨ name ∈ identifier.toList.map fun x => String.ofList [x]

instance (identifier : String) : (entry : Entry) → Decidable (entry.UsedBy identifier)
  | .function name | .symbol name => inferInstanceAs (Decidable (identifier = name))
  | .constant name =>
    inferInstanceAs (Decidable (identifier = name ∨ name ∈ identifier.toList.map fun x => String.ofList [x]))

/-- The catalogs know the same of all names but for one entry. -/
structure AgreeBut (entry : Entry) (c c' : Catalog) : Prop where
  function : ∀ name, entry ≠ .function name → c.function? name = c'.function? name
  constant : ∀ name, entry ≠ .constant name → c.constant? name = c'.constant? name
  symbol : ∀ name, entry ≠ .symbol name → c.isSymbol name = c'.isSymbol name

/-- Catalogs that differ in one entry agree on an identifier that does not use it. -/
theorem AgreeBut.agree {entry : Entry} {c c' : Catalog} (h : c.AgreeBut entry c') {identifier : String}
    (hunused : ¬ entry.UsedBy identifier) : c.Agree c' identifier where
  function := h.function _ (by rintro rfl; exact hunused rfl)
  constant := h.constant _ (by rintro rfl; exact hunused (.inl rfl))
  symbol := h.symbol _ (by rintro rfl; exact hunused rfl)
  letters x hx := h.constant _ (by rintro rfl; exact hunused (.inr (List.mem_map_of_mem hx)))

/-! ## Insertions -/

theorem agreeBut_insertFunction (c : Catalog) (f : Function) : c.AgreeBut (.function f.name) (c.insertFunction f) where
  function _ hname := (find?_upsert_of_ne Callable.name f c.functions fun h => hname (congrArg _ h)).symm
  constant _ _ := rfl
  symbol _ _ := rfl

/-- A function that is inserted in both makes no difference. -/
theorem AgreeBut.insertFunction {entry : Entry} {c c' : Catalog} (h : c.AgreeBut entry c') (f : Function) :
    (c.insertFunction f).AgreeBut entry (c'.insertFunction f) where
  function name hname := by
    by_cases hf : f.name = name
    · subst hf
      exact (find?_upsert_self Callable.name f c.functions).trans (find?_upsert_self Callable.name f c'.functions).symm
    · exact (find?_upsert_of_ne Callable.name f c.functions hf).trans
        ((h.function name hname).trans (find?_upsert_of_ne Callable.name f c'.functions hf).symm)
  constant := h.constant
  symbol := h.symbol

theorem agreeBut_insertConstant (c : Catalog) (name : String) (value : Value) :
    c.AgreeBut (.constant name) (c.insertConstant name value) where
  function _ _ := rfl
  constant other hother := by
    have hfind := find?_upsert_of_ne Prod.fst (name, value) c.constants fun h : name = other => hother (congrArg _ h)
    exact congrArg (·.map Prod.snd) hfind.symm
  symbol _ _ := rfl

theorem contains_upsert_of_ne {name other : String} (h : name ≠ other) (names : List String) :
    (upsert id name names).contains other = names.contains other := by
  induction names with
  | nil => simp [upsert, h.symm]
  | cons n names ih =>
    simp only [upsert]
    split <;> simp_all

theorem agreeBut_insertSymbol (c : Catalog) (name : String) : c.AgreeBut (.symbol name) (c.insertSymbol name) where
  function _ _ := rfl
  constant _ _ := rfl
  symbol _ hother := (contains_upsert_of_ne (fun h => hother (congrArg _ h)) c.symbols).symm

end Catalog

namespace Setting

open Catalog (Entry)

variable {s s' : Setting}

/-- One text, read with two settings that know the same of its identifiers. -/
theorem likeness_of_agree (hlimits : s.limits = s'.limits) :
    s.Likeness (fun t t' => t = t' ∧ (t.symbol = .identifier → s.catalog.Agree s'.catalog t.lexeme)) (· = ·) s' where
  limits := hlimits
  symbol h := congrArg Token.symbol h.1
  lexeme h _ := congrArg Token.lexeme h.1
  agree h := h.2
  refl _ := rfl
  unexpected h := congrArg unexpected h.1
  unrecognized h _ := by rw [h.1]

/-- Registering a name affects only texts that use it. If two catalogs differ in one entry only, for a function, a
constant or a symbol, and no identifier of a text uses the entry, then with the same limits the text is parsed to the
same tree or the same error, with the same variables, whichever were met before. -/
theorem parse_unused {entry : Entry} (hlimits : s.limits = s'.limits) (hc : s.catalog.AgreeBut entry s'.catalog)
    {text : String} (hunused : ∀ t ∈ (tokenize text).tokens, t.symbol = .identifier → ¬ entry.UsedBy t.lexeme)
    (goal : Goal) :
    s.parse goal text = s'.parse goal text ∧
      ∀ names, s.parseTokens goal (tokenize text).tokens names = s'.parseTokens goal (tokenize text).tokens names := by
  have htokens : ∀ names, s.parseTokens goal (tokenize text).tokens names =
      s'.parseTokens goal (tokenize text).tokens names := by
    intro names
    have hend : ∀ position : Text.Position, (Token.finish position).symbol = .identifier →
        s.catalog.Agree s'.catalog (Token.finish position).lexeme := fun _ h => by cases h
    obtain ⟨hconcur, -⟩ := (likeness_of_agree hlimits).parseTokens_concur ⟨rfl, hend _⟩
      (List.forall₂_same.mpr fun t ht => ⟨rfl, fun hi => hc.agree (hunused t ht hi)⟩) goal names
    exact congrArg (fun x => Parsed.mk x.1 x.2) hconcur.eq
  refine ⟨?_, htokens⟩
  unfold parse
  dsimp only
  split
  · rfl
  · exact htokens []

/-- A constant named by one letter: identifiers that have the letter are read in another way, a text without it is
not. -/
theorem parse_without_letter :
    let s : Setting := {}
    let s' : Setting := { catalog := Catalog.builtin.insertConstant "b" (.int 3) }
    s.parse .equation "sin(ax)+x_2" = s'.parse .equation "sin(ax)+x_2" ∧
      (s.identifier "ab" none []).2 = ["a", "b"] ∧ (s'.identifier "ab" none []).2 = ["a"] := by
  have hunused : ∀ t ∈ (tokenize "sin(ax)+x_2").tokens, t.symbol = .identifier →
      ¬ (Entry.constant "b").UsedBy t.lexeme := by decide +kernel
  have hc := Catalog.agreeBut_insertConstant Catalog.builtin "b" (.int 3)
  intro s s'
  have hlimits : s.limits = s'.limits := rfl
  have hs : s.catalog.AgreeBut (.constant "b") s'.catalog := hc
  exact ⟨(parse_unused hlimits hs hunused .equation).1, by decide +kernel⟩

end Setting

end Formula
