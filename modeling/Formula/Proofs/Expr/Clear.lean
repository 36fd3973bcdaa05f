import Formula.Proofs.Expr.Invariant
import Formula.Proofs.Expr.Statements
import Formula.Proofs.Expr.Translation
import Formula.Proofs.Token.Joins
import Formula.Proofs.Token.Munch

/-!
# Clear trees

Not every tree that is read can be told by its text alone. A function by itself is read only directly behind the sign of
composition, and there the name of a function is never a variable; and the letters that a word is split into may be
keywords when they stand alone. A tree where none of this happens is clear (`Expr.isClear`).

`Expr.Clear` says node by node what reading a clear tree back needs: literals, names and functions that are read as what
they stand for, and powers and factorials that pass their checks. The parser makes sure of all of it, so a tree that was
read is `Clear` if it is clear, and the same holds of relations, intervals and definitions as whole texts
(`Setting.clearText_of_parse`).
-/

namespace Formula

open Pattern (Matches)
open Text (Position Span)

/-! ## Which trees are clear -/

/-- The name up to its subscript. -/
def baseOf (name : String) : String := String.ofList (name.toList.takeWhile (· != '_'))

/-- Directly behind the sign of composition the name would be read as a function. -/
def Catalog.takes (c : Catalog) (name : String) : Bool := baseOf name == name && (c.function? name).isSome

namespace Expr

mutual

/-- Functions by themselves stand behind a sign of composition only, no variable and no constant with the name of a
function stands there, and no name is a keyword. -/
def isClear (c : Catalog) : Expr → Bool
  | .number .. => true
  | .variable name | .constant name _ => (Lexer.keyword? (baseOf name)).isNone
  | .function _ => false
  | .pos a | .neg a | .factorial a _ | .absolute a | .setInterval _ a | .truth a => a.isClear c
  | .binary _ a b | .power a b _ | .relation _ a b | .interval _ a b _ | .limit _ a b => a.isClear c && b.isClear c
  | .compose _ (.function _) => true
  | .compose _ a => a.isClear c && !(a.name?.any c.takes)
  | .definition _ params body => isClearAll c params && body.isClear c
  | .call _ args => isClearAll c args
  | .big _ _ a b body => a.isClear c && b.isClear c && body.isClear c

def isClearAll (c : Catalog) : List Expr → Bool
  | [] => true
  | e :: es => e.isClear c && isClearAll c es

end

theorem isClearAll_iff {c : Catalog} {es : List Expr} : isClearAll c es = true ↔ ∀ e ∈ es, e.isClear c = true := by
  induction es with
  | nil => simp [isClearAll]
  | cons e es ih => simp [isClearAll, ih]

theorem isClear_classify (c : Catalog) (e : Expr) : e.classify.isClear c = e.isClear c := by
  unfold classify
  split
  · split
    · rw [isClear]
    · rfl
  · rfl

theorem render_classify (e : Expr) : e.classify.render = e.render := by
  unfold classify
  split
  · split
    · rw [render.eq_def (.truth _)]
    · rfl
  · rfl

theorem render_of_name? {name : String} {e : Expr} (h : e.name? = some name) : e.render = name := by
  unfold name? at h
  split at h <;> cases h <;> rw [render]

end Expr

/-! ## What is read back -/

/-- The function is the one that its name stands for. -/
structure Setting.Knows (s : Setting) (f : Function) : Prop where
  word : IsWord f.name
  found : s.catalog.function? f.name = some f

namespace Expr

/-- The trees whose text is read as the tree. -/
inductive Clear (s : Setting) : Expr → Prop where
  | number {literal : String} {value : Number} (hn : IsNumeral literal) (hv : Number.ofLiteral? literal = some value)
      (hc : checkedNumber s.limits literal value = .ok (.number literal value)) : Clear s (.number literal value)
  | word {name : String} {e : Expr} (hw : IsWord name) (he : s.resolve name none = e) (hname : e.name? = some name) :
      Clear s e
  | subscript {base sub : String} (hb : IsWord base) (hs : IsWord sub ∨ IsNumeral sub)
      (h : s.resolve base (some sub) = .variable (base ++ "_" ++ sub)) : Clear s (.variable (base ++ "_" ++ sub))
  | pos {a : Expr} (ha : Clear s a) : Clear s (.pos a)
  | neg {a : Expr} (ha : Clear s a) : Clear s (.neg a)
  | factorial {a : Expr} (ha : Clear s a)
      (hc : checkedFactorial a s.limits.factorial = .ok (.factorial a s.limits.factorial)) :
      Clear s (.factorial a s.limits.factorial)
  | absolute {a : Expr} (ha : Clear s a) : Clear s (.absolute a)
  | binary {op : Operator} {a b : Expr} (ha : Clear s a) (hb : Clear s b) : Clear s (.binary op a b)
  | power {a b : Expr} (ha : Clear s a) (hb : Clear s b)
      (hc : checkedPower a b s.limits.exponent = .ok (.power a b s.limits.exponent)) :
      Clear s (.power a b s.limits.exponent)
  | composed {f g : Function} (hf : s.Knows f) (hg : s.Knows g) : Clear s (.compose (.function f) (.function g))
  | compose {f : Function} {a : Expr} (hf : s.Knows f) (ha : Clear s a)
      (hn : ∀ name, a.name? = some name → s.catalog.takes name = false) : Clear s (.compose (.function f) a)
  | call {f : Function} {args : List Expr} (hf : s.Knows f) (hn : f.accepts args.length = true)
      (ha : ∀ a ∈ args, Clear s a) : Clear s (.call f args)
  | limit {target : String} {a b : Expr} (ht : IsWord target) (ha : Clear s a) (hb : Clear s b) :
      Clear s (.limit target a b)
  | big {op : BigOperator} {var : String} {a b c : Expr} (hv : IsWord var) (ha : Clear s a) (hb : Clear s b)
      (hc : Clear s c) : Clear s (.big op var a b c)

/-- Whole texts that are read as the tree, and then told apart as relations with a truth value and others. -/
inductive ClearText (s : Setting) : Goal → Expr → Prop where
  | expression {e : Expr} (h : Clear s e) : ClearText s .equation e
  | relation {op : Relation} {a b : Expr} (ha : Clear s a) (hb : Clear s b) : ClearText s .equation (.relation op a b)
  | interval {square square' : Bool} {a b : Expr} (ha : Clear s a) (hb : Clear s b) :
      ClearText s .equation (.span square a b square')
  | setInterval {set : NumberSet} {square square' : Bool} {a b : Expr} (ha : Clear s a) (hb : Clear s b) :
      ClearText s .equation (.setInterval set (.span square a b square'))
  | definition {name : String} {params : List Expr} {body : Expr} (hn : IsWord name) (hp : ∀ p ∈ params, Clear s p)
      (hb : Clear s body) : ClearText s .definition (.definition name params body)

end Expr

/-! ## Tokens of a text -/

namespace Lexer

/-- What is cut out as an identifier is a word, and what is cut out as a number is a numeral. -/
theorem Scanned.spelled_right {text : List Char} {ls : List Lexeme} (h : Scanned text ls) :
    ∀ l ∈ ls, (l.symbol = .identifier → IsWord l.text) ∧ (l.symbol = .number → IsNumeral l.text) := by
  have hrules : ∀ r ∈ rules, (r.2 = .word → r.1 = .atLeastOne letter) ∧ (.number ∈ symbols "" r.2 → r.1 = numeral) ∧
      (r.2 ≠ .word → .identifier ∉ symbols "" r.2) := by
    decide
  induction h with
  | done => simp
  | @piece text n a ls _ hp _ ih =>
    obtain ⟨p, hr, hm⟩ := exists_rule_of_piece? hp
    obtain ⟨hword, hnumber, hidentifier⟩ := hrules _ hr
    intro l hl
    rcases List.mem_append.mp hl with hl | hl
    · obtain ⟨x, hx, rfl⟩ := List.mem_map.mp hl
      dsimp only
      cases a with
      | word =>
        obtain rfl := List.mem_singleton.mp hx
        obtain rfl := hword rfl
        have hnames : ∀ k, keyword? (String.ofList (text.take n)) = some k → k ≠ .identifier ∧ k ≠ .number := by
          intro k hk
          unfold keyword? at hk
          split at hk <;> cases hk <;> decide
        cases hk : keyword? (String.ofList (text.take n)) with
        | none => exact ⟨fun _ => ⟨by rwa [String.toList_ofList], hk⟩, fun h => by cases h⟩
        | some k =>
          obtain ⟨hi, hn⟩ := hnames k hk
          exact ⟨fun h => absurd h hi, fun h => absurd h hn⟩
      | _ =>
        refine ⟨fun h => absurd (h ▸ hx) (hidentifier (by simp)), fun h => ?_⟩
        obtain rfl := hnumber (h ▸ hx)
        rw [IsNumeral, String.toList_ofList]
        exact hm
    · exact ih l hl

end Lexer

/-! ## Names -/

theorem baseOf_eq {name : String} (h : '_' ∉ name.toList) : baseOf name = name := by
  have hall : ∀ c ∈ name.toList, (c != '_') = true := by
    rintro c hc
    rw [bne_iff_ne]
    rintro rfl
    exact h hc
  rw [baseOf, List.takeWhile_eq_self_iff.mpr hall, String.ofList_toList]

theorem baseOf_subscript {base : String} (h : '_' ∉ base.toList) (sub : String) :
    baseOf (base ++ "_" ++ sub) = base := by
  have hall : ∀ c ∈ base.toList, (c != '_') = true := by
    rintro c hc
    rw [bne_iff_ne]
    rintro rfl
    exact h hc
  have htext : (base ++ "_" ++ sub).toList = base.toList ++ '_' :: sub.toList := by simp
  rw [baseOf, htext, List.takeWhile_append_of_pos hall, List.takeWhile_cons_of_neg (by simp), List.append_nil,
    String.ofList_toList]

/-- A letter of a word is a word, unless it is a keyword. -/
theorem IsWord.letter {word : String} (h : IsWord word) {c : Char} (hc : c ∈ word.toList)
    (hk : Lexer.keyword? (String.ofList [c]) = none) : IsWord (String.ofList [c]) := by
  refine ⟨?_, hk⟩
  have hcontains : Lexer.letters.contains c = true :=
    Lexer.letters_of_word (p := .atLeastOne Lexer.letter) (by decide) h.letters c hc
  rw [String.toList_ofList]
  exact Pattern.matches_atLeastOne (List.cons_ne_nil _ _) (List.forall_mem_singleton.mpr hcontains)

namespace Setting

variable {s : Setting}

theorem resolve_of_isWhole {name : String} (h : s.isWhole name = true) (subscript : Option String) :
    s.resolve name subscript = s.letter name subscript := by
  rw [resolve, letters, if_pos h]
  rfl

/-- A name that stands for itself is read back. -/
theorem clear_letter {name : String} (hw : IsWord name) (h : s.isWhole name = true) {subscript : Option String}
    (hs : ∀ u ∈ subscript, IsWord u ∨ IsNumeral u) : (s.letter name subscript).Clear s := by
  have hresolve := resolve_of_isWhole h subscript
  cases subscript with
  | none =>
    refine .word hw hresolve ?_
    unfold letter
    dsimp only
    split <;> rfl
  | some u => exact .subscript hw (hs u rfl) hresolve

/-- The base of a name is a keyword in no clear tree. -/
theorem keyword?_of_isClear_letter {name : String} (hn : '_' ∉ name.toList) {subscript : Option String} {c : Catalog}
    (h : (s.letter name subscript).isClear c = true) : Lexer.keyword? name = none := by
  unfold letter at h
  split at h
  · rwa [Expr.isClear, baseOf_subscript hn, Option.isNone_iff_eq_none] at h
  · split at h <;> rwa [Expr.isClear, baseOf_eq hn, Option.isNone_iff_eq_none] at h

/-- The letters of a word are read back if they are clear. -/
theorem clear_letters {name : String} (hw : IsWord name) {subscript : Option String}
    (hs : ∀ u ∈ subscript, IsWord u ∨ IsNumeral u) {c : Catalog} :
    ∀ e ∈ s.letters name subscript, e.isClear c = true → e.Clear s := by
  have hsingle : ∀ {x subscript}, x ∈ name.toList → (∀ u ∈ subscript, IsWord u ∨ IsNumeral u) →
      (s.letter (String.ofList [x]) subscript).isClear c = true → (s.letter (String.ofList [x]) subscript).Clear s := by
    intro x subscript hx hs hc
    have hscore : '_' ∉ (String.ofList [x]).toList := by
      rw [String.toList_ofList, List.mem_singleton]
      rintro rfl
      exact hw.underscore_not_mem hx
    exact clear_letter (hw.letter hx (keyword?_of_isClear_letter hscore hc)) (by simp [isWhole]) hs
  intro e he hc
  unfold letters at he
  split at he
  · rename_i hwhole
    obtain rfl := List.mem_singleton.mp he
    exact clear_letter hw hwhole hs
  · dsimp only at he
    split at he
    · cases he
    · rename_i last before hr
      -- the letters are the characters, the last one with the subscript
      have hmem : ∀ y ∈ last :: before, ∃ x ∈ name.toList, y = String.ofList [x] := by
        intro y hy
        rw [← hr, List.mem_reverse] at hy
        obtain ⟨x, hx, rfl⟩ := List.mem_map.mp hy
        exact ⟨x, hx, rfl⟩
      rcases List.mem_append.mp he with he | he
      · obtain ⟨y, hy, rfl⟩ := List.mem_map.mp he
        obtain ⟨x, hx, rfl⟩ := hmem y (List.mem_cons_of_mem _ (List.mem_reverse.mp hy))
        exact hsingle hx (by simp) hc
      · obtain rfl := List.mem_singleton.mp he
        obtain ⟨x, hx, rfl⟩ := hmem last List.mem_cons_self
        exact hsingle hx hs hc

/-- What a word is read as is read back if it is clear. -/
theorem clear_resolve {name : String} (hw : IsWord name) {subscript : Option String}
    (hs : ∀ u ∈ subscript, IsWord u ∨ IsNumeral u) {c : Catalog} (hc : (s.resolve name subscript).isClear c = true) :
    (s.resolve name subscript).Clear s := by
  have hfold : ∀ (es : List Expr) (a : Expr), (∀ e ∈ es, e.isClear c = true → e.Clear s) →
      (a.isClear c = true → a.Clear s) → (es.foldl (.binary .mul) a).isClear c = true →
        (es.foldl (.binary .mul) a).Clear s := by
    intro es
    induction es with
    | nil => exact fun a _ ha => ha
    | cons e es ih =>
      intro a hes ha
      refine ih _ (fun e he => hes e (List.mem_cons_of_mem _ he)) fun h => ?_
      rw [Expr.isClear, Bool.and_eq_true] at h
      exact .binary (ha h.1) (hes e List.mem_cons_self h.2)
  have hletters := clear_letters (s := s) hw hs (c := c)
  unfold resolve productOf at hc ⊢
  cases he : s.letters name subscript with
  | nil => exact absurd (eq_empty_of_letters he) hw.ne_empty
  | cons e es =>
    rw [he] at hletters hc
    exact hfold es e (fun e he => hletters e (List.mem_cons_of_mem _ he)) (hletters e List.mem_cons_self) hc

/-! ## What the parser builds -/

/-- What the parser makes sure of in a tree inside a text: it is read back if it is clear, and a function is known. -/
def Fine (s : Setting) (e : Expr) : Prop :=
  (e.isClear s.catalog = true → e.Clear s) ∧ ∀ f, e = .function f → s.Knows f

/-- What the parser makes sure of in a tree that a symbol carries. -/
def Carries (s : Setting) : Symbol → Expr → Prop
  | .start | .equation => fun e => e.isClear s.catalog = true → e.ClearText s .equation
  | .definitionStart | .definition => fun e => e.isClear s.catalog = true → e.ClearText s .definition
  | .interval => fun e => ∃ square a b square', e = .span square a b square' ∧ s.Fine a ∧ s.Fine b
  | _ => s.Fine

/-- What the parser makes sure of in a token. -/
structure Legible (s : Setting) (t : Token) : Prop where
  word : t.symbol = .identifier → IsWord t.lexeme
  numeral : t.symbol = .number → IsNumeral t.lexeme
  payload : t.payload.All (s.Carries t.symbol)

namespace Fine

variable {a b : Expr}

/-- A node that is no function is fine if it is read back when its parts are. -/
theorem of_clear {e : Expr} (hf : ∀ f, e ≠ .function f) (h : e.isClear s.catalog = true → e.Clear s) : s.Fine e :=
  ⟨h, fun f hef => absurd hef (hf f)⟩

theorem resolve {name : String} (hw : IsWord name) {subscript : Option String}
    (hs : ∀ u ∈ subscript, IsWord u ∨ IsNumeral u) : s.Fine (s.resolve name subscript) := by
  refine ⟨clear_resolve hw hs, fun f hf => ?_⟩
  have hno : ∀ f, s.resolve name subscript ≠ .function f :=
    resolve_induction (Q := fun e => ∀ f, e ≠ .function f) (by simp) (by simp) (by simp) name subscript
  exact absurd hf (hno f)

theorem literal {t : Token} {e : Expr} (ht : IsNumeral t.lexeme) (h : s.Literal t e) : s.Fine e := by
  obtain ⟨v, hv, hc, rfl⟩ := h
  exact of_clear (by simp) fun _ => .number ht hv (Expr.checkedNumber_eq_ok.mpr ⟨hc, rfl⟩)

theorem binary (op : Operator) (ha : s.Fine a) (hb : s.Fine b) : s.Fine (.binary op a b) := by
  refine of_clear (by simp) fun h => ?_
  rw [Expr.isClear, Bool.and_eq_true] at h
  exact .binary (ha.1 h.1) (hb.1 h.2)

end Fine

theorem knows_of_find {name : String} (hw : IsWord name) {f : Function} (hf : s.catalog.function? name = some f) :
    s.Knows f := by
  have hname : f.name = name := by
    unfold Catalog.function? at hf
    simpa using List.find?_some hf
  exact ⟨hname ▸ hw, by rw [hname, hf]⟩

/-- A call is fine if its arguments are. -/
theorem Calls.fine {name : String} {sub : Option Token} {args : List Expr} {e : Expr} (h : s.Calls name sub args e)
    (hw : IsWord name) (hs : ∀ t ∈ sub, s.Legible t ∧ (t.symbol = .number ∨ t.symbol = .identifier))
    (hargs : ∀ a ∈ args, s.Fine a) : s.Fine e := by
  cases h with
  | @function f lead hf hl ha =>
    have hall : ∀ a ∈ lead ++ args, s.Fine a := by
      refine List.forall_mem_append.mpr ⟨?_, hargs⟩
      cases hl with
      | none => simp
      | number ht he => exact List.forall_mem_singleton.mpr (.literal ((hs _ rfl).1.numeral ht) he)
      | name ht =>
        obtain ⟨hlegible, hsymbol⟩ := hs _ rfl
        exact List.forall_mem_singleton.mpr (.resolve (hlegible.word (hsymbol.resolve_left ht)) (by simp))
    refine .of_clear (by simp) fun h => ?_
    rw [Expr.isClear, Expr.isClearAll_iff] at h
    exact .call (knows_of_find hw hf) ha fun a ha => (hall a ha).1 (h a ha)
  | product hf ha =>
    subst ha
    refine .binary .mul (.resolve hw fun u hu => ?_) (hargs _ List.mem_cons_self)
    obtain ⟨t, ht, rfl⟩ := Option.mem_map.mp hu
    obtain ⟨hlegible, hsymbol⟩ := hs t ht
    exact hsymbol.elim (fun h => .inr (hlegible.numeral h)) fun h => .inl (hlegible.word h)

/-! ## The whole run -/

/-- The symbol of a token in a phrase. -/
theorem exists_symbol {rhs : List Symbol} {phrase : List Token} (hsymbols : phrase.map (·.symbol) = rhs) {i : Nat}
    {t : Token} (ht : phrase[i]? = some t) : rhs[i]? = some t.symbol := by
  rw [← hsymbols, List.getElem?_map, ht]
  rfl

section

variable {rhs : List Symbol} {phrase : List Token} {below : Option Symbol} {i : Nat} {x : Symbol}

/-- A tree in a phrase of legible tokens. -/
theorem carries_of_tree (hsymbols : phrase.map (·.symbol) = rhs) (hall : ∀ t ∈ phrase, s.Legible t)
    (hx : rhs[i]? = some x) {e : Expr} (he : Phrase.Tree ⟨phrase, below⟩ i e) : s.Carries x e := by
  obtain ⟨t, ht, hpayload⟩ := he
  have hlegible := (hall t (List.mem_of_getElem? ht)).payload
  rwa [hpayload, Option.some.inj ((exists_symbol hsymbols ht).symm.trans hx)] at hlegible

/-- The arguments in a phrase of legible tokens. -/
theorem carries_of_trees (hsymbols : phrase.map (·.symbol) = rhs) (hall : ∀ t ∈ phrase, s.Legible t)
    (hx : rhs[i]? = some x) {es : List Expr} (he : Phrase.Trees ⟨phrase, below⟩ i es) : ∀ e ∈ es, s.Carries x e := by
  obtain ⟨t, ht, hpayload⟩ := he
  have hlegible := (hall t (List.mem_of_getElem? ht)).payload
  rwa [hpayload, Option.some.inj ((exists_symbol hsymbols ht).symm.trans hx)] at hlegible

/-- A word in a phrase of legible tokens. -/
theorem isWord_of_text (hsymbols : phrase.map (·.symbol) = rhs) (hall : ∀ t ∈ phrase, s.Legible t)
    (hx : rhs[i]? = some .identifier) {name : String} (hn : Phrase.Text ⟨phrase, below⟩ i name) : IsWord name := by
  obtain ⟨t, ht, rfl⟩ := hn
  exact (hall t (List.mem_of_getElem? ht)).word (Option.some.inj ((exists_symbol hsymbols ht).symm.trans hx))

end

/-- What the rules make of legible tokens is legible. -/
theorem legible_handsOn (s : Setting) : s.HandsOn s.Legible := by
  intro f phrase below payload span hf hsymbols hall hm
  have hlhs : ∀ f ∈ Rule.table, f.lhs ≠ .identifier ∧ f.lhs ≠ .number := by decide
  refine ⟨fun h => absurd h (hlhs f hf).1, fun h => absurd h (hlhs f hf).2, ?_⟩
  dsimp only
  obtain ⟨rule, lhs, rhs, prec⟩ := f
  have hform := Rule.form?_of_mem hf
  dsimp only at hm hform hsymbols ⊢
  -- what the phrase holds at a place whose symbol is known
  have hcarries : ∀ {i e} (x), rhs[i]? = some x → Phrase.Tree ⟨phrase, below⟩ i e → s.Carries x e :=
    fun _ hx he => carries_of_tree hsymbols hall hx he
  have hgroup : ∀ {i e}, rhs[i]? = some .group → Phrase.Tree ⟨phrase, below⟩ i e → s.Fine e := hcarries .group
  have hexpr : ∀ {i e}, rhs[i]? = some .expression → Phrase.Tree ⟨phrase, below⟩ i e → s.Fine e := hcarries .expression
  have hargs : ∀ {i es}, rhs[i]? = some .arguments → Phrase.Trees ⟨phrase, below⟩ i es → ∀ e ∈ es, s.Fine e :=
    fun hx he => carries_of_trees hsymbols hall hx he
  have hword : ∀ {i name}, rhs[i]? = some .identifier → Phrase.Text ⟨phrase, below⟩ i name → IsWord name :=
    fun hx hn => isWord_of_text hsymbols hall hx hn
  cases hm with
  | hand hr he =>
    simp only [Rule.handing, List.mem_cons, Prod.mk.injEq, List.not_mem_nil, or_false] at hr
    rcases hr with ⟨rfl, rfl⟩ | ⟨rfl, rfl⟩ | ⟨rfl, rfl⟩ | ⟨rfl, rfl⟩ | ⟨rfl, rfl⟩ | ⟨rfl, rfl⟩ | ⟨rfl, rfl⟩ |
      ⟨rfl, rfl⟩ | ⟨rfl, rfl⟩ | ⟨rfl, rfl⟩ | ⟨rfl, rfl⟩ <;> cases hform
    case hand.inr.inr.inl.refl => exact fun h => .expression ((hexpr rfl he).1 h)
    case hand.inr.inr.inr.inl.refl =>
      obtain ⟨square, a, b, square', rfl, ha, hb⟩ := hcarries .interval rfl he
      intro h
      rw [Expr.span, Expr.isClear, Bool.and_eq_true] at h
      exact .interval (ha.1 h.1) (hb.1 h.2)
    all_goals exact hcarries _ rfl he
  | relation hr ha hb =>
    simp only [Rule.relations, List.mem_cons, Prod.mk.injEq, List.not_mem_nil, or_false] at hr
    rcases hr with ⟨rfl, rfl, rfl⟩ | ⟨rfl, rfl, rfl⟩ | ⟨rfl, rfl, rfl⟩ | ⟨rfl, rfl, rfl⟩ | ⟨rfl, rfl, rfl⟩ |
      ⟨rfl, rfl, rfl⟩ <;> cases hform <;> · intro h
                                            rw [Expr.isClear, Bool.and_eq_true] at h
                                            exact .relation ((hexpr rfl ha).1 h.1) ((hexpr rfl hb).1 h.2)
  | interval hr ha hb =>
    simp only [Rule.intervals, List.mem_cons, Prod.mk.injEq, List.not_mem_nil, or_false] at hr
    rcases hr with ⟨rfl, rfl, rfl⟩ | ⟨rfl, rfl, rfl⟩ | ⟨rfl, rfl, rfl⟩ | ⟨rfl, rfl, rfl⟩ <;> cases hform
    · exact ⟨true, _, _, true, rfl, hexpr rfl ha, hexpr rfl hb⟩
    · exact ⟨true, _, _, false, rfl, hexpr rfl ha, hexpr rfl hb⟩
    · exact ⟨false, _, _, true, rfl, hexpr rfl ha, hexpr rfl hb⟩
    · exact ⟨false, _, _, false, rfl, hexpr rfl ha, hexpr rfl hb⟩
  | setInterval hn hs he =>
    cases hform
    obtain ⟨square, a, b, square', rfl, ha, hb⟩ := hcarries .interval rfl he
    intro h
    rw [Expr.isClear, Expr.span, Expr.isClear, Bool.and_eq_true] at h
    exact .setInterval (ha.1 h.1) (hb.1 h.2)
  | definition hn hp hb =>
    cases hform
    intro h
    rw [Expr.isClear, Bool.and_eq_true, Expr.isClearAll_iff] at h
    exact .definition (hword rfl hn) (fun p hm => (hargs rfl hp p hm).1 (h.1 p hm)) ((hexpr rfl hb).1 h.2)
  | definitionWithoutParameters hn hb =>
    cases hform
    intro h
    rw [Expr.isClear, Bool.and_eq_true] at h
    exact .definition (hword rfl hn) (by simp) ((hexpr rfl hb).1 h.2)
  | firstArgument he =>
    cases hform
    exact List.forall_mem_singleton.mpr (hexpr rfl he)
  | nextArgument hs he =>
    cases hform
    exact List.forall_mem_append.mpr ⟨hargs rfl hs, List.forall_mem_singleton.mpr (hexpr rfl he)⟩
  | operation hr ha hb =>
    simp only [Rule.operations, List.mem_cons, Prod.mk.injEq, List.not_mem_nil, or_false] at hr
    rcases hr with ⟨rfl, rfl, rfl⟩ | ⟨rfl, rfl, rfl⟩ | ⟨rfl, rfl, rfl⟩ | ⟨rfl, rfl, rfl⟩ | ⟨rfl, rfl, rfl⟩ |
      ⟨rfl, rfl, rfl⟩ <;> cases hform
    case inr.inr.inr.inr.inr.refl => exact Fine.binary _ (hgroup rfl ha) (hgroup rfl hb)
    all_goals exact Fine.binary _ (hexpr rfl ha) (hexpr rfl hb)
  | @pos _ e hr he =>
    have hfine : s.Fine e := by rcases hr with rfl | rfl <;> cases hform <;> exact hcarries _ rfl he
    have hpos : s.Fine (.pos e) := .of_clear (by simp) fun h => .pos (hfine.1 (by rwa [Expr.isClear] at h))
    rcases hr with rfl | rfl <;> cases hform <;> exact hpos
  | @neg _ e hr he =>
    have hfine : s.Fine e := by rcases hr with rfl | rfl <;> cases hform <;> exact hcarries _ rfl he
    have hneg : s.Fine (.neg e) := .of_clear (by simp) fun h => .neg (hfine.1 (by rwa [Expr.isClear] at h))
    rcases hr with rfl | rfl <;> cases hform <;> exact hneg
  | power ha hb hc =>
    cases hform
    refine Fine.of_clear (by simp) fun h => ?_
    rw [Expr.isClear, Bool.and_eq_true] at h
    exact .power ((hgroup rfl ha).1 h.1) ((hgroup rfl hb).1 h.2) (Expr.checkedPower_eq_ok.mpr ⟨hc, rfl⟩)
  | factorial ha hc =>
    cases hform
    refine Fine.of_clear (by simp) fun h => ?_
    rw [Expr.isClear] at h
    exact .factorial ((hgroup rfl ha).1 h) (Expr.checkedFactorial_eq_ok.mpr ⟨hc, rfl⟩)
  | @number _ t e hr ht he =>
    have hfine : s.Fine e := by
      refine .literal ((hall t (List.mem_of_getElem? ht)).numeral ?_) he
      rcases hr with rfl | rfl <;> cases hform <;> exact (Option.some.inj (exists_symbol hsymbols ht)).symm
    rcases hr with rfl | rfl <;> cases hform <;> exact hfine
  | bars he =>
    cases hform
    refine Fine.of_clear (by simp) fun h => ?_
    rw [Expr.isClear] at h
    exact .absolute ((hexpr rfl he).1 h)
  | function hn hb hfound =>
    cases hform
    refine ⟨fun h => by simp [Expr.isClear] at h, fun g hg => ?_⟩
    cases hg
    exact knows_of_find (hword rfl hn) hfound
  | @identifier _ name hr hb hn =>
    have hfine : s.Fine (s.resolve name none) := by
      refine .resolve ?_ (by simp)
      rcases hr with rfl | rfl <;> cases hform <;> exact hword rfl hn
    rcases hr with rfl | rfl <;> cases hform <;> exact hfine
  | @subscript _ name sub hr hn hs =>
    obtain ⟨t, ht, rfl⟩ := hs
    have hlegible := hall t (List.mem_of_getElem? ht)
    have hname : IsWord name := by rcases hr with rfl | rfl <;> cases hform <;> exact hword rfl hn
    have hsub : IsWord t.lexeme ∨ IsNumeral t.lexeme := by
      rcases hr with rfl | rfl <;> cases hform
      · exact .inr (hlegible.numeral (Option.some.inj (exists_symbol hsymbols ht)).symm)
      · exact .inl (hlegible.word (Option.some.inj (exists_symbol hsymbols ht)).symm)
    have hfine : s.Fine (s.resolve name (some t.lexeme)) := .resolve hname fun u hu => Option.some.inj hu ▸ hsub
    rcases hr with rfl | rfl <;> cases hform <;> exact hfine
  | call hn ha he =>
    cases hform
    exact he.fine (hword rfl hn) (by simp) (hargs rfl ha)
  | callWithoutArguments hn he =>
    cases hform
    exact he.fine (hword rfl hn) (by simp) (by simp)
  | @subscriptCall _ name sub args e hr hn hs ha he =>
    have hsub : s.Legible sub ∧ (sub.symbol = .number ∨ sub.symbol = .identifier) := by
      refine ⟨hall sub (List.mem_of_getElem? hs), ?_⟩
      rcases hr with rfl | rfl <;> cases hform
      · exact .inl (Option.some.inj (exists_symbol hsymbols hs)).symm
      · exact .inr (Option.some.inj (exists_symbol hsymbols hs)).symm
    have hname : IsWord name := by rcases hr with rfl | rfl <;> cases hform <;> exact hword rfl hn
    have hfine : s.Fine e := by
      refine he.fine hname (fun t ht => Option.some.inj ht ▸ hsub) ?_
      rcases hr with rfl | rfl <;> cases hform <;> exact hargs rfl ha
    rcases hr with rfl | rfl <;> cases hform <;> exact hfine
  | @composition name f e hn hfound he =>
    cases hform
    have hknown := knows_of_find (hword rfl hn) hfound
    have hfine := hgroup rfl he
    refine Fine.of_clear (by simp) fun h => ?_
    by_cases hg : ∃ g, e = .function g
    · obtain ⟨g, rfl⟩ := hg
      exact .composed hknown (hfine.2 g rfl)
    · have hclear : e.isClear s.catalog = true ∧ (e.name?.any s.catalog.takes) = false := by
        rw [Expr.isClear] at h
        · simpa using h
        · exact fun g hg' => hg ⟨g, hg'⟩
      refine .compose hknown (hfine.1 hclear.1) fun name hname => ?_
      rw [hname] at hclear
      exact hclear.2
  | limit ht ha hb =>
    cases hform
    refine Fine.of_clear (by simp) fun h => ?_
    rw [Expr.isClear, Bool.and_eq_true] at h
    exact .limit (hword rfl ht) ((hexpr rfl ha).1 h.1) ((hgroup rfl hb).1 h.2)
  | @big _ op var a b c hr hv ha hb hc =>
    have hfine : IsWord var ∧ s.Fine a ∧ s.Fine b ∧ s.Fine c := by
      simp only [Rule.bigOperators, List.mem_cons, Prod.mk.injEq, List.not_mem_nil, or_false] at hr
      rcases hr with ⟨rfl, rfl⟩ | ⟨rfl, rfl⟩ <;> cases hform <;>
        exact ⟨hword rfl hv, hexpr rfl ha, hcarries .bound rfl hb, hgroup rfl hc⟩
    have hbig : s.Fine (.big op var a b c) := by
      refine .of_clear (by simp) fun h => ?_
      rw [Expr.isClear, Bool.and_eq_true, Bool.and_eq_true] at h
      exact .big hfine.1 (hfine.2.1.1 h.1.1) (hfine.2.2.1.1 h.1.2) (hfine.2.2.2.1 h.2)
    simp only [Rule.bigOperators, List.mem_cons, Prod.mk.injEq, List.not_mem_nil, or_false] at hr
    rcases hr with ⟨rfl, rfl⟩ | ⟨rfl, rfl⟩ <;> cases hform <;> exact hbig

theorem legible_finish (position : Position) : s.Legible (.finish position) where
  word h := nomatch h
  numeral h := nomatch h
  payload := trivial

/-- The words of a text are legible. -/
theorem legible_of_tokenize {text : String} (h : (tokenize text).failure = none) :
    ∀ t ∈ (tokenize text).tokens, s.Legible t := by
  obtain ⟨ls, hls⟩ := Lexer.exists_scanned le_rfl h
  obtain ⟨words, stop, hscan, hwords⟩ := Lexer.scan_of_scanned hls le_rfl {}
  have htokens : (tokenize text).tokens = words ++ [.finish stop] := congrArg Lexer.Scan.tokens hscan
  intro t ht
  have hpayload : t.payload.All (s.Carries t.symbol) := by
    rw [Lexer.payload_scan ht]
    trivial
  rw [htokens] at ht
  rcases List.mem_append.mp ht with ht | ht
  · have hspelled := hls.spelled_right t.written (hwords ▸ List.mem_map_of_mem ht)
    exact ⟨hspelled.1, hspelled.2, hpayload⟩
  · obtain rfl := List.mem_singleton.mp ht
    exact legible_finish stop

/-- A tree that was read can be read back if it is clear. -/
theorem clearText_of_parse {goal : Goal} {text : String} {e : Expr} (h : (s.parse goal text).result = .ok e)
    (hc : e.isClear s.catalog = true) : ∃ a : Expr, e = a.classify ∧ a.ClearText s goal := by
  obtain ⟨hfailure, token, a, hrun, ha, rfl⟩ := parse_eq_ok.mp h
  have hlegible : s.Legible token :=
    run_preserves (legible_handsOn s) legible_finish (legible_of_tokenize hfailure) hrun
  have hsymbol : token.symbol = goal.symbol := by
    obtain ⟨_, _, _, _, _, _, _, hsymbol⟩ := exists_moves hrun
    exact hsymbol
  have hcarries := hlegible.payload
  rw [ha, hsymbol] at hcarries
  rw [Expr.isClear_classify] at hc
  refine ⟨a, rfl, ?_⟩
  cases goal <;> exact hcarries hc

end Setting

end Formula
